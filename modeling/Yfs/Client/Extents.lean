import Yfs.Client.Operations
import Yfs.Lib.Serial

/-! Extents as the operations of a client rely on them: every one has a type and one
content, which `get` and `put` of all clients share. -/

namespace Yfs.Client

open Yfs.Lib Yfs.Store Program

structure Extent where
  type : UInt32
  bytes : List UInt8

abbrev Extents := Nat → Option Extent

/-- How coherent extents answer a call. Of the attributes only the type is fixed. -/
def answers : (c : Call) → Extents → c.Reply → Extents → Prop
  | .get eid, E, r, E' => ∃ x, E eid = some x ∧ r = (OK, x.bytes) ∧ E' = E
  | .put eid buf, E, r, E' => ∃ x, E eid = some x ∧ r = OK ∧
    E' = Function.update E eid (some { x with bytes := buf })
  | .getattr eid, E, r, E' => ∃ x, E eid = some x ∧ r.1 = OK ∧ r.2.type = x.type ∧ E' = E
  | .create type, E, r, E' => E r.2 = none ∧ r.2 < 2 ^ 64 ∧ r.1 = OK ∧
    E' = Function.update E r.2 (some ⟨type, []⟩)
  | .remove eid, E, r, E' => r = OK ∧ E' = Function.update E eid none

end Yfs.Client
