import Classlet.Memory.Class

/-! # Structural equality of values

`Memory.same` compares values by their structure and references by identity: lists and tuples are
equal when their elements are, and numbers of different kinds are different.  It is the equality
that a host program uses; the operator `==` of the language asks the operands. -/

namespace Classlet.Memory

mutual

/-- Structural equality, given the equality of the elements of lists. -/
def sameWith (inside : ListRef → ListRef → Bool) : Value → Value → Bool
  | .nil, w => w.isNil
  | .bool a, w => match w with | .bool b => a == b | _ => false
  | .int a, w => match w with | .int b => a == b | _ => false
  | .real a, w => match w with | .real b => a == b | _ => false
  | .str a, w => match w with | .str b => a == b | _ => false
  | .list a, w => match w with | .list b => inside a b | _ => false
  | .tuple as, w => match w with | .tuple bs => sameAllWith inside as bs | _ => false
  | .function a, w => match w with | .function b => a == b | _ => false
  | .method a, w => match w with | .method b => a == b | _ => false
  | .builtin a, w => match w with | .builtin b => a == b | _ => false
  | .ofClass a, w => match w with | .ofClass b => a == b | _ => false
  | .instance a, w => match w with | .instance b => a == b | _ => false
  | .module a, w => match w with | .module b => a == b | _ => false
termination_by structural v => v

/-- Elementwise structural equality. -/
def sameAllWith (inside : ListRef → ListRef → Bool) : List Value → List Value → Bool
  | [], ws => ws.isEmpty
  | v :: vs, ws =>
    match ws with
    | w :: more => sameWith inside v w && sameAllWith inside vs more
    | [] => false
termination_by structural vs => vs

end

/-- Equality of the elements of two lists, with lists nested at most `fuel` deep in them. -/
def sameListsAt (m : Memory) : Nat → ListRef → ListRef → Bool
  | 0, _, _ => true
  | fuel + 1, a, b =>
    sameAllWith (sameListsAt m fuel) (m.elements a).toList (m.elements b).toList

/-- Structural equality of values. -/
def same (m : Memory) (v w : Value) : Bool := sameWith (m.sameListsAt (m.lists.size + 1)) v w

end Classlet.Memory
