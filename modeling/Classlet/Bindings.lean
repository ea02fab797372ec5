/-! # Bindings

Names with a value each, in the order in which the names were first bound.  Frames of variables,
fields of instances, attributes of classes and exports of modules are all bindings. -/

namespace Classlet

/-- Names with a value each. -/
abbrev Bindings (α : Type) := List (String × α)

namespace Bindings

variable {α : Type}

/-- The value bound to a name. -/
def get? : Bindings α → String → Option α
  | [], _ => none
  | (n, v) :: rest, name => if n = name then some v else get? rest name

def has (b : Bindings α) (name : String) : Bool := (b.get? name).isSome

/-- Bind a name.  A bound name keeps its place and gets the new value. -/
def insert : Bindings α → String → α → Bindings α
  | [], name, value => [(name, value)]
  | (n, v) :: rest, name, value =>
    if n = name then (n, value) :: rest else (n, v) :: insert rest name value

/-- Drop the binding of a name. -/
def erase : Bindings α → String → Bindings α
  | [], _ => []
  | (n, v) :: rest, name => if n = name then rest else (n, v) :: erase rest name

@[simp] theorem get?_nil (name : String) : get? ([] : Bindings α) name = none := rfl

@[simp] theorem get?_insert_self (b : Bindings α) (name : String) (value : α) :
    (b.insert name value).get? name = some value := by
  induction b with
  | nil => simp [insert, get?]
  | cons p rest ih =>
    obtain ⟨n, v⟩ := p
    by_cases h : n = name <;> simp [insert, get?, h, ih]

theorem get?_insert_of_ne (b : Bindings α) {name other : String} (value : α) (h : name ≠ other) :
    (b.insert name value).get? other = b.get? other := by
  induction b with
  | nil => simp [insert, get?, h]
  | cons p rest ih =>
    obtain ⟨n, v⟩ := p
    by_cases hn : n = name
    · subst hn
      simp [insert, get?, h]
    · rw [insert, if_neg hn, get?, get?, ih]

end Bindings

end Classlet
