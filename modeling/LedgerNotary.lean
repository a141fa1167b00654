import LedgerNotary.Main
import LedgerNotary.Proofs.Index.Independent
import LedgerNotary.Proofs.Merkle.SharedRoot
import LedgerNotary.Proofs.Notary.DoubleSpend
import LedgerNotary.Proofs.Notary.Honest
import LedgerNotary.Proofs.Notary.Separation
import LedgerNotary.Proofs.Notary.Settings
import LedgerNotary.Proofs.StateRef
import LedgerNotary.Proofs.TearOff.Disclosure
