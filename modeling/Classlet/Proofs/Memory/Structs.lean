import Classlet.Proofs.Memory.Growth
import Mathlib.Data.Finset.Card
import Mathlib.Data.List.Nodup

/-! # Struct values in fields

A field holds the struct value that was copied for it.  So no struct value is in two fields, and
struct values nest without cycles (`Memory.Nests`): a rank falls from every instance to the struct
values in its fields.  That bounds the depth of a struct value by the number of instances, which is
why copying never runs out of fuel.

A copy brings new instances, and what it returns is in no field yet (`Memory.Grows`).  What a
program does to objects evolves memory (`Memory.Evolves`): struct values in fields stay where they
are, or go, or are new. -/

namespace Classlet

def Value.struct? : Value → Option Nat
  | .instance i => if i.isStruct then some i.index else none
  | _ => none

theorem Value.struct?_eq_none {v : Value} (h : v.isStruct = false) : v.struct? = none := by
  cases v
  case «instance» i => exact if_neg (ne_true_of_eq_false h)
  all_goals rfl

theorem Value.isStruct_eq_false {v : Value} (h : v.struct? = none) : v.isStruct = false := by
  cases v
  case «instance» i => exact eq_false_of_ne_true fun hi => by cases (if_pos hi).symm.trans h
  all_goals rfl

theorem Value.struct?_eq_some {v : Value} {l : Nat} (h : v.struct? = some l) :
    ∃ i, v = .instance i ∧ i.isStruct = true ∧ i.index = l := by
  cases v
  case «instance» i =>
    obtain ⟨hstruct, hindex⟩ := Option.ite_some_none_eq_some.mp h
    exact ⟨i, rfl, hstruct, hindex⟩
  all_goals cases h

/-! ### Struct values among bindings -/

namespace Bindings

variable {b : Bindings Value} {name : String} {v : Value} {n : Nat}

/-- The struct values among bound values, in order. -/
def structs (b : Bindings Value) : List Nat := b.filterMap fun p => p.2.struct?

theorem structs_cons (name : String) (v : Value) (b : Bindings Value) :
    structs ((name, v) :: b) = v.struct?.toList ++ b.structs := by
  unfold structs
  rw [List.filterMap_cons]
  cases v.struct? <;> rfl

theorem structs_eq_nil (h : ∀ p ∈ b, p.2.isStruct = false) : b.structs = [] :=
  List.filterMap_eq_nil_iff.mpr fun p hp => Value.struct?_eq_none (h p hp)

theorem mem_of_get? : ∀ {b : Bindings Value}, b.get? name = some v → (name, v) ∈ b
  | (other, w) :: rest, h => by
      rw [get?] at h
      split at h
      · rename_i hname
        cases h
        rw [hname]
        exact List.mem_cons_self
      · exact List.mem_cons_of_mem _ (mem_of_get? h)

theorem mem_insert {p : String × Value} : ∀ {b : Bindings Value},
    p ∈ b.insert name v → p = (name, v) ∨ p ∈ b
  | [], h => .inl (List.mem_singleton.mp h)
  | (other, w) :: rest, h => by
      rw [insert] at h
      split at h
      · rename_i hname
        subst hname
        exact (List.mem_cons.mp h).imp id (List.mem_cons_of_mem _)
      · rcases List.mem_cons.mp h with rfl | h
        · exact .inr List.mem_cons_self
        · exact (mem_insert h).imp id (List.mem_cons_of_mem _)

theorem mem_structs_insert (h : n ∈ (b.insert name v).structs) :
    v.struct? = some n ∨ n ∈ b.structs := by
  obtain ⟨p, hp, hn⟩ := List.mem_filterMap.mp h
  rcases mem_insert hp with rfl | hp
  · exact .inl hn
  · exact .inr (List.mem_filterMap.mpr ⟨p, hp, hn⟩)

theorem mem_structs_of_get? (h : (b.get? name).bind Value.struct? = some n) : n ∈ b.structs := by
  obtain ⟨v, hv, hn⟩ := Option.bind_eq_some_iff.mp h
  exact List.mem_filterMap.mpr ⟨_, mem_of_get? hv, hn⟩

theorem name_eq_of_nodup {other : String} : ∀ {b : Bindings Value}, b.structs.Nodup →
    (b.get? name).bind Value.struct? = some n → (b.get? other).bind Value.struct? = some n →
      name = other
  | (first, v) :: rest, hnodup, h, h' => by
      rw [structs_cons] at hnodup
      obtain ⟨-, hrest, hdisjoint⟩ := List.nodup_append.mp hnodup
      rw [get?] at h h'
      have hnew : ∀ key, v.struct? = some n →
          (get? rest key).bind Value.struct? = some n → False := by
        intro key hv hkey
        refine hdisjoint n ?_ n (mem_structs_of_get? hkey) rfl
        rw [hv]
        exact List.mem_singleton_self n
      by_cases hname : first = name
      · by_cases hother : first = other
        · exact hname.symm.trans hother
        · rw [if_pos hname] at h
          rw [if_neg hother] at h'
          exact (hnew other h h').elim
      · by_cases hother : first = other
        · rw [if_neg hname] at h
          rw [if_pos hother] at h'
          exact (hnew name h' h).elim
        · rw [if_neg hname] at h
          rw [if_neg hother] at h'
          exact name_eq_of_nodup hrest h h'

end Bindings

namespace Memory

variable {k l m : Memory} {i j n : Nat} {name : String} {v : Value}

/-! ### Struct values in fields -/

/-- The fields of the instance at an index. -/
def fieldsAt (k : Memory) (i : Nat) : Bindings Value := k.instances[i]?.getD []

def heldIn? (k : Memory) (i : Nat) (name : String) : Option Nat :=
  ((k.fieldsAt i).get? name).bind Value.struct?

/-- A rank that falls from every instance to the struct values in its fields, which exist. -/
def Ranked (k : Memory) (rank : Nat → Nat) : Prop :=
  ∀ i, ∀ n ∈ (k.fieldsAt i).structs, n < k.instances.size ∧ rank n < rank i

/-- A rank that falls from every instance of `S` to the struct values in its fields, which exist and
belong to `S` as well. -/
def RankedOn (k : Memory) (S : Nat → Prop) (rank : Nat → Nat) : Prop :=
  ∀ i, S i → ∀ n ∈ (k.fieldsAt i).structs, n < k.instances.size ∧ S n ∧ rank n < rank i

/-- Struct values nest without cycles. -/
def Nests (k : Memory) : Prop := ∃ rank, k.Ranked rank

theorem fieldsAt_of_size_le (h : k.instances.size ≤ i) : k.fieldsAt i = [] := by
  rw [fieldsAt, Array.getElem?_eq_none h]
  rfl

theorem fieldsAt_eq_of_lt (h : k.instances.toList <+: l.instances.toList)
    (hi : i < k.instances.size) : l.fieldsAt i = k.fieldsAt i := by
  have hget := List.prefix_iff_getElem?.mp h i hi
  rw [Array.getElem?_toList] at hget
  rw [fieldsAt, fieldsAt, hget, Array.getElem?_eq_getElem hi]
  rfl

theorem fieldsAt_pushInstance (k : Memory) (fields : Bindings Value) (i : Nat) :
    (k.pushInstance fields).fieldsAt i =
      if i = k.instances.size then fields else k.fieldsAt i := by
  unfold pushInstance fieldsAt
  dsimp only
  rw [Array.getElem?_push]
  split <;> rfl

theorem mem_structs_of_heldIn? (h : k.heldIn? i name = some n) : n ∈ (k.fieldsAt i).structs :=
  Bindings.mem_structs_of_get? h

theorem lt_of_heldIn? (h : k.heldIn? i name = some n) : i < k.instances.size := by
  by_contra hge
  rw [heldIn?, fieldsAt_of_size_le (Nat.le_of_not_lt hge)] at h
  cases h

theorem Nests.lt (h : k.Nests) (hn : k.heldIn? i name = some n) : n < k.instances.size := by
  obtain ⟨rank, hrank⟩ := h
  exact (hrank i n (mem_structs_of_heldIn? hn)).1

/-- The number of instances of lower rank is a rank as well, which has a bound. -/
theorem RankedOn.exists_le {S : Nat → Prop} {rank : Nat → Nat} (h : k.RankedOn S rank) :
    ∃ rank, k.RankedOn S rank ∧ ∀ i, rank i ≤ k.instances.size := by
  refine ⟨fun i => ((Finset.range k.instances.size).filter (rank · < rank i)).card, ?_, ?_⟩
  · intro i hi n hn
    obtain ⟨hlt, hS, hfall⟩ := h i hi n hn
    refine ⟨hlt, hS, Finset.card_lt_card (Finset.ssubset_iff_of_subset ?_ |>.mpr ⟨n, ?_, ?_⟩)⟩
    · intro j hj
      rw [Finset.mem_filter] at hj ⊢
      exact ⟨hj.1, hj.2.trans hfall⟩
    · exact Finset.mem_filter.mpr ⟨Finset.mem_range.mpr hlt, hfall⟩
    · simp
  · intro i
    exact (Finset.card_filter_le _ _).trans_eq (Finset.card_range _)

theorem Ranked.rankedOn {rank : Nat → Nat} (h : k.Ranked rank) : k.RankedOn (fun _ => True) rank :=
  fun i _ n hn => ⟨(h i n hn).1, trivial, (h i n hn).2⟩

theorem Nests.exists_le (h : k.Nests) :
    ∃ rank, k.Ranked rank ∧ ∀ i, rank i ≤ k.instances.size := by
  obtain ⟨rank, hrank⟩ := h
  obtain ⟨rank, hrank, hle⟩ := hrank.rankedOn.exists_le
  exact ⟨rank, fun i n hn => ⟨(hrank i trivial n hn).1, (hrank i trivial n hn).2.2⟩, hle⟩

/-- A rank for the instances of `l` from one for those of `k`.  New instances are ranked by their
index, and older ones above all of them. -/
def extendRank (k l : Memory) (rank : Nat → Nat) (i : Nat) : Nat :=
  if i < k.instances.size then rank i + l.instances.size else i

/-! ### New instances -/

/-- Instances have been added.  The struct values in their fields are new as well, are older than
them and are in one field only.  Those in `loose` are in no field. -/
structure Grows (k l : Memory) (loose : List Nat) : Prop where
  old : k.instances.toList <+: l.instances.toList
  inner : ∀ i, k.instances.size ≤ i →
    ∀ n ∈ (l.fieldsAt i).structs, k.instances.size ≤ n ∧ n < i
  once : ∀ i j a b n, k.instances.size ≤ i → k.instances.size ≤ j →
    l.heldIn? i a = some n → l.heldIn? j b = some n → i = j ∧ a = b
  nodup : loose.Nodup
  unheld : ∀ n ∈ loose, k.instances.size ≤ n ∧ n < l.instances.size ∧
    ∀ i, k.instances.size ≤ i → n ∉ (l.fieldsAt i).structs

/-- An instance is new and in no field. -/
structure Loose (k l : Memory) (n : Nat) : Prop where
  new : k.instances.size ≤ n
  lt : n < l.instances.size
  free : ∀ i a, l.heldIn? i a ≠ some n

namespace Grows

variable {loose more : List Nat}

theorem size_le (h : k.Grows l loose) : k.instances.size ≤ l.instances.size := h.old.length_le

/-- Older instances have the fields that they had. -/
theorem fieldsAt_eq (h : k.Grows l loose) (hi : i < k.instances.size) :
    l.fieldsAt i = k.fieldsAt i :=
  fieldsAt_eq_of_lt h.old hi

theorem heldIn?_eq (h : k.Grows l loose) (hi : i < k.instances.size) (name : String) :
    l.heldIn? i name = k.heldIn? i name := by
  rw [heldIn?, h.fieldsAt_eq hi, heldIn?]

theorem refl (k : Memory) : k.Grows k [] where
  old := List.prefix_rfl
  inner i hi n hn := by
    rw [fieldsAt_of_size_le hi] at hn
    cases hn
  once i j a b n hi _ ha _ := absurd (lt_of_heldIn? ha) (Nat.not_lt.mpr hi)
  nodup := List.nodup_nil
  unheld n hn := by cases hn

theorem sublist (h : k.Grows l loose) (hmore : more.Sublist loose) : k.Grows l more :=
  { h with
    nodup := h.nodup.sublist hmore
    unheld := fun n hn => h.unheld n (hmore.subset hn) }

theorem trans (h₁ : k.Grows l loose) (h₂ : l.Grows m more) : k.Grows m (loose ++ more) where
  old := h₁.old.trans h₂.old
  inner i hi n hn := by
    by_cases hlt : i < l.instances.size
    · rw [h₂.fieldsAt_eq hlt] at hn
      exact h₁.inner i hi n hn
    · obtain ⟨hle, hn⟩ := h₂.inner i (Nat.le_of_not_lt hlt) n hn
      exact ⟨h₁.size_le.trans hle, hn⟩
  once i j a b n hi hj ha hb := by
    -- the instances of one step hold nothing that came with the other one
    have hsplit : ∀ {i j : Nat} {a b : String}, k.instances.size ≤ i → i < l.instances.size →
        ¬ j < l.instances.size → m.heldIn? i a = some n → m.heldIn? j b ≠ some n := by
      intro i j a b hi hlt hge ha hb
      rw [h₂.heldIn?_eq hlt] at ha
      have hn := (h₁.inner i hi n (mem_structs_of_heldIn? ha)).2
      have hn' := (h₂.inner j (Nat.le_of_not_lt hge) n (mem_structs_of_heldIn? hb)).1
      omega
    by_cases hli : i < l.instances.size
    · by_cases hlj : j < l.instances.size
      · rw [h₂.heldIn?_eq hli] at ha
        rw [h₂.heldIn?_eq hlj] at hb
        exact h₁.once i j a b n hi hj ha hb
      · exact absurd hb (hsplit hi hli hlj ha)
    · by_cases hlj : j < l.instances.size
      · exact absurd ha (hsplit hj hlj hli hb)
      · exact h₂.once i j a b n (Nat.le_of_not_lt hli) (Nat.le_of_not_lt hlj) ha hb
  nodup := by
    refine List.nodup_append.mpr ⟨h₁.nodup, h₂.nodup, ?_⟩
    rintro n hn n' hn' rfl
    have hlt := (h₁.unheld n hn).2.1
    have hle := (h₂.unheld n hn').1
    omega
  unheld n hn := by
    rcases List.mem_append.mp hn with hn | hn
    · obtain ⟨hle, hlt, hfree⟩ := h₁.unheld n hn
      refine ⟨hle, hlt.trans_le h₂.size_le, fun i hi hmem => ?_⟩
      by_cases hli : i < l.instances.size
      · rw [h₂.fieldsAt_eq hli] at hmem
        exact hfree i hi hmem
      · have hn' := (h₂.inner i (Nat.le_of_not_lt hli) n hmem).1
        omega
    · obtain ⟨hle, hlt, hfree⟩ := h₂.unheld n hn
      refine ⟨h₁.size_le.trans hle, hlt, fun i hi hmem => ?_⟩
      by_cases hli : i < l.instances.size
      · rw [h₂.fieldsAt_eq hli] at hmem
        have hn' := (h₁.inner i hi n hmem).2
        omega
      · exact hfree i (Nat.le_of_not_lt hli) hmem

/-- An instance that takes the loose struct values into its fields is loose itself. -/
theorem pushInstance {fields : Bindings Value} (h : k.Grows l fields.structs) {j : InstanceRef}
    (hj : j.index = l.instances.size) :
    k.Grows (l.pushInstance fields) (Value.instance j).struct?.toList := by
  have hsize : (l.pushInstance fields).instances.size = l.instances.size + 1 :=
    Array.size_push fields
  have hheld : ∀ {i a n}, (l.pushInstance fields).heldIn? i a = some n →
      (i = l.instances.size ∧ (fields.get? a).bind Value.struct? = some n) ∨
        (i ≠ l.instances.size ∧ l.heldIn? i a = some n) := by
    intro i a n ha
    rw [heldIn?, fieldsAt_pushInstance] at ha
    by_cases hi : i = l.instances.size
    · rw [if_pos hi] at ha
      exact .inl ⟨hi, ha⟩
    · rw [if_neg hi] at ha
      exact .inr ⟨hi, ha⟩
  -- what the new instance holds was loose, so that no other instance holds it
  have hsplit : ∀ {i : Nat} {a b : String} {n : Nat}, k.instances.size ≤ i →
      (fields.get? a).bind Value.struct? = some n → l.heldIn? i b ≠ some n := by
    intro i a b n hi ha hb
    exact (h.unheld n (Bindings.mem_structs_of_get? ha)).2.2 i hi (mem_structs_of_heldIn? hb)
  have hloose : k.Grows (l.pushInstance fields) [l.instances.size] := by
    refine ⟨h.old.trans (prefix_push l.instances fields), ?_, ?_, List.nodup_singleton _, ?_⟩
    · intro i hi n hn
      rw [fieldsAt_pushInstance] at hn
      split at hn
      · rename_i hnew
        obtain ⟨hle, hlt, -⟩ := h.unheld n hn
        exact ⟨hle, hnew ▸ hlt⟩
      · exact h.inner i hi n hn
    · intro i j a b n hi hj ha hb
      rcases hheld ha with ⟨hni, ha'⟩ | ⟨-, ha'⟩
      · rcases hheld hb with ⟨hnj, hb'⟩ | ⟨-, hb'⟩
        · exact ⟨hni.trans hnj.symm, Bindings.name_eq_of_nodup h.nodup ha' hb'⟩
        · exact absurd hb' (hsplit hj ha')
      · rcases hheld hb with ⟨-, hb'⟩ | ⟨-, hb'⟩
        · exact absurd ha' (hsplit hi hb')
        · exact h.once i j a b n hi hj ha' hb'
    · intro n hn
      obtain rfl := List.mem_singleton.mp hn
      refine ⟨h.size_le, by omega, fun i hi hmem => ?_⟩
      rw [fieldsAt_pushInstance] at hmem
      split at hmem
      · have hlt := (h.unheld _ hmem).2.1
        omega
      · rename_i hnew
        have hlt := (h.inner i hi _ hmem).2
        rw [fieldsAt_of_size_le (by omega)] at hmem
        cases hmem
  refine hloose.sublist ?_
  rw [← hj, Value.struct?]
  split
  · exact List.Sublist.refl _
  · exact List.nil_sublist _

theorem ranked (h : k.Grows l loose) {rank : Nat → Nat} (hrank : k.Ranked rank) :
    l.Ranked (k.extendRank l rank) := by
  intro i n hn
  unfold extendRank
  by_cases hi : i < k.instances.size
  · rw [h.fieldsAt_eq hi] at hn
    obtain ⟨hlt, hfall⟩ := hrank i n hn
    rw [if_pos hi, if_pos hlt]
    exact ⟨hlt.trans_le h.size_le, Nat.add_lt_add_right hfall _⟩
  · obtain ⟨hle, hlt⟩ := h.inner i (Nat.le_of_not_lt hi) n hn
    have hil : i < l.instances.size := by
      by_contra hge
      rw [fieldsAt_of_size_le (Nat.le_of_not_lt hge)] at hn
      cases hn
    rw [if_neg hi, if_neg (Nat.not_lt.mpr hle)]
    exact ⟨hlt.trans hil, hlt⟩

theorem isLoose (h : k.Grows l loose) (hk : k.Nests) (hn : n ∈ loose) : k.Loose l n := by
  obtain ⟨hle, hlt, hfree⟩ := h.unheld n hn
  refine ⟨hle, hlt, fun i name hheld => ?_⟩
  by_cases hi : i < k.instances.size
  · rw [h.heldIn?_eq hi] at hheld
    have hold := hk.lt hheld
    omega
  · exact hfree i (Nat.le_of_not_lt hi) (mem_structs_of_heldIn? hheld)

end Grows

/-! ### Copies -/

section copies
variable {S : Nat → Prop} {rank : Nat → Nat}

theorem grows_copyFields {copy : Memory → Value → Value × Memory} {old : Memory} 
    {P : Value → Prop} (hcopy : ∀ (k : Memory) (v : Value),
      old.instances.toList <+: k.instances.toList → P v →
        k.Grows (copy k v).2 (copy k v).1.struct?.toList) :
    ∀ (fields : Bindings Value) (k : Memory), old.instances.toList <+: k.instances.toList →
      (∀ p ∈ fields, P p.2) →
      k.Grows (copyFields copy k fields).2 (copyFields copy k fields).1.structs
  | [], k, _, _ => .refl k
  | (name, v) :: more, k, hold, hP => by
      rw [copyFields]
      dsimp only
      rw [Bindings.structs_cons]
      have hfirst := hcopy k v hold (hP _ List.mem_cons_self)
      have hmore := fun p hp => hP p (List.mem_cons_of_mem _ hp)
      exact hfirst.trans (grows_copyFields hcopy more _ (hold.trans hfirst.old) hmore)

/-- A copy that has fuel for the rank of a struct value is new all the way down. -/
theorem grows_copyAt {old : Memory} (hrank : old.RankedOn S rank) : ∀ (fuel : Nat) (k : Memory)
    (v : Value), old.instances.toList <+: k.instances.toList →
      (∀ n, v.struct? = some n → k.fieldsAt n = old.fieldsAt n ∧ S n ∧ rank n < fuel) →
      k.Grows (copyAt fuel k v).2 (copyAt fuel k v).1.struct?.toList
  | 0, k, v, _, hv => by
      have hnone : v.struct? = none := by
        cases hs : v.struct? with
        | none => rfl
        | some n => exact absurd (hv n hs).2.2 (Nat.not_lt_zero _)
      rw [copyAt, hnone]
      exact .refl k
  | fuel + 1, k, v, hold, hv => by
      cases v
      case «instance» i =>
        rw [copyAt]
        dsimp only
        split
        · rename_i hstruct
          obtain ⟨hfields, hS, hfuel⟩ := hv i.index (if_pos hstruct)
          have hinner : ∀ p ∈ k.fieldsAt i.index, ∀ n, p.2.struct? = some n →
              n < old.instances.size ∧ S n ∧ rank n < fuel := by
            intro p hp n hn
            rw [hfields] at hp
            obtain ⟨hlt, hSn, hfall⟩ := hrank i.index hS n (List.mem_filterMap.mpr ⟨p, hp, hn⟩)
            exact ⟨hlt, hSn, by omega⟩
          have hcopy : ∀ (k : Memory) (w : Value), old.instances.toList <+: k.instances.toList →
              (∀ n, w.struct? = some n → n < old.instances.size ∧ S n ∧ rank n < fuel) →
              k.Grows (copyAt fuel k w).2 (copyAt fuel k w).1.struct?.toList :=
            fun k w hold hw => grows_copyAt hrank fuel k w hold fun n hn =>
              ⟨fieldsAt_eq_of_lt hold (hw n hn).1, (hw n hn).2⟩
          exact (grows_copyFields hcopy _ k hold hinner).pushInstance rfl
        · rename_i hstruct
          rw [show (Value.instance i).struct? = none from if_neg hstruct]
          exact .refl k
      all_goals exact .refl k

/-- What is bound for a value is new if it is a struct value, and is in no field. -/
theorem RankedOn.grows_copyForBinding (hrank : k.RankedOn S rank)
    (hv : ∀ n, v.struct? = some n → S n) :
    k.Grows (k.copyForBinding v).2 (k.copyForBinding v).1.struct?.toList := by
  unfold copyForBinding
  split
  · obtain ⟨rank, hrank, hle⟩ := hrank.exists_le
    exact grows_copyAt hrank _ k v List.prefix_rfl fun n hn =>
      ⟨rfl, hv n hn, Nat.lt_succ_of_le (hle n)⟩
  · rename_i hstruct
    rw [Value.struct?_eq_none (eq_false_of_ne_true hstruct)]
    exact .refl k

theorem grows_copyForBinding (hk : k.Nests) (v : Value) :
    k.Grows (k.copyForBinding v).2 (k.copyForBinding v).1.struct?.toList := by
  obtain ⟨rank, hrank⟩ := hk
  exact hrank.rankedOn.grows_copyForBinding fun _ _ => trivial

end copies

/-! ### What a program does to objects -/

/-- A struct value in a field was there before, or is new and in no other field. -/
structure Evolves (k l : Memory) : Prop where
  nests : l.Nests
  size_le : k.instances.size ≤ l.instances.size
  held : ∀ i, ∀ n ∈ (l.fieldsAt i).structs, n ∈ (k.fieldsAt i).structs ∨ k.instances.size ≤ n
  fields : ∀ i a n, l.heldIn? i a = some n → k.heldIn? i a = some n ∨ k.instances.size ≤ n
  once : ∀ i j a b n, k.instances.size ≤ n → l.heldIn? i a = some n → l.heldIn? j b = some n →
    i = j ∧ a = b

namespace Evolves

theorem of_grows {loose : List Nat} (h : k.Grows l loose) (hk : k.Nests) : k.Evolves l where
  nests := by
    obtain ⟨rank, hrank⟩ := hk
    exact ⟨_, h.ranked hrank⟩
  size_le := h.size_le
  held i n hn := by
    by_cases hi : i < k.instances.size
    · rw [h.fieldsAt_eq hi] at hn
      exact .inl hn
    · exact .inr (h.inner i (Nat.le_of_not_lt hi) n hn).1
  fields i a n ha := by
    by_cases hi : i < k.instances.size
    · rw [h.heldIn?_eq hi] at ha
      exact .inl ha
    · exact .inr (h.inner i (Nat.le_of_not_lt hi) n (mem_structs_of_heldIn? ha)).1
  once i j a b n hn ha hb := by
    have hnew : ∀ {i : Nat} {a : String}, l.heldIn? i a = some n → k.instances.size ≤ i := by
      intro i a ha
      by_contra hlt
      rw [h.heldIn?_eq (Nat.lt_of_not_le hlt)] at ha
      have hold := hk.lt ha
      omega
    exact h.once i j a b n (hnew ha) (hnew hb) ha hb

theorem of_instances (hk : k.Nests) (h : l.instances = k.instances) : k.Evolves l := by
  have hat : ∀ i, l.fieldsAt i = k.fieldsAt i := fun i => by rw [fieldsAt, h, fieldsAt]
  have hheld : ∀ i a, l.heldIn? i a = k.heldIn? i a := fun i a => by rw [heldIn?, hat, heldIn?]
  refine ⟨?_, by rw [h], fun i n hn => .inl (hat i ▸ hn), fun i a n ha => .inl (hheld i a ▸ ha),
    fun i j a b n hn ha hb => ?_⟩
  · obtain ⟨rank, hrank⟩ := hk
    refine ⟨rank, fun i n hn => ?_⟩
    rw [hat] at hn
    rw [h]
    exact hrank i n hn
  · rw [hheld] at ha
    have hlt := hk.lt ha
    omega

end Evolves

/-- An instance is there, and no field holds it as a struct value. -/
structure Free (k : Memory) (n : Nat) : Prop where
  lt : n < k.instances.size
  unheld : ∀ i, n ∉ (k.fieldsAt i).structs

theorem Evolves.free (h : k.Evolves l) (hn : k.Free n) : l.Free n where
  lt := hn.lt.trans_le h.size_le
  unheld i hi := (h.held i n hi).elim (hn.unheld i) (Nat.not_le.mpr hn.lt)

theorem fieldsAt_setField (k : Memory) {i : InstanceRef} (hi : i.index < k.instances.size)
    (name : String) (v : Value) (j : Nat) :
    (k.setField i name v).fieldsAt j =
      if j = i.index then (k.fieldsAt j).insert name v else k.fieldsAt j := by
  unfold setField fieldsAt
  dsimp only
  rw [Array.getElem?_modify]
  by_cases hj : j = i.index
  · subst hj
    rw [if_pos rfl, if_pos rfl, Array.getElem?_eq_getElem hi]
    rfl
  · rw [if_neg (Ne.symm hj), if_neg hj]

/-- A field of an older instance gets a struct value that is loose. -/
theorem Grows.setField {i : InstanceRef} (h : k.Grows l v.struct?.toList) (hk : k.Nests)
    (hi : i.index < k.instances.size) (name : String) : k.Evolves (l.setField i name v) := by
  have hevolves := Evolves.of_grows h hk
  have hat := l.fieldsAt_setField (hi.trans_le h.size_le) name v
  have hsize : (l.setField i name v).instances.size = l.instances.size := Array.size_modify
  have hloose : ∀ {n}, v.struct? = some n → k.Loose l n :=
    fun hn => h.isLoose hk (Option.mem_toList.mpr hn)
  have hheld : ∀ {j a n}, (l.setField i name v).heldIn? j a = some n →
      (j = i.index ∧ a = name ∧ v.struct? = some n) ∨ l.heldIn? j a = some n := by
    intro j a n ha
    rw [heldIn?, hat] at ha
    split at ha
    · rename_i hj
      by_cases hname : name = a
      · subst hname
        rw [Bindings.get?_insert_self] at ha
        exact .inl ⟨hj, rfl, ha⟩
      · rw [Bindings.get?_insert_of_ne _ _ hname] at ha
        exact .inr ha
    · exact .inr ha
  constructor
  case nests =>
    obtain ⟨rank, hrank⟩ := hk
    have hranked := h.ranked hrank
    refine ⟨k.extendRank l rank, fun j n hn => ?_⟩
    rw [hat] at hn
    rw [hsize]
    split at hn
    · rename_i hj
      rcases Bindings.mem_structs_insert hn with hn | hn
      · obtain ⟨hle, hlt, -⟩ := hloose hn
        rw [extendRank, extendRank, hj, if_pos hi, if_neg (Nat.not_lt.mpr hle)]
        exact ⟨hlt, hlt.trans_le (Nat.le_add_left _ _)⟩
      · exact hranked j n hn
    · exact hranked j n hn
  case size_le => exact h.size_le.trans_eq hsize.symm
  case held =>
    intro j n hn
    rw [hat] at hn
    split at hn
    · rename_i hj
      rcases Bindings.mem_structs_insert hn with hn | hn
      · exact .inr (hloose hn).new
      · exact hevolves.held j n hn
    · exact hevolves.held j n hn
  case fields =>
    intro j a n ha
    rcases hheld ha with ⟨-, -, hn⟩ | ha
    · exact .inr (hloose hn).new
    · exact hevolves.fields j a n ha
  case once =>
    intro j j' a b n hn ha hb
    rcases hheld ha with ⟨hj, ha, hv⟩ | ha
    · rcases hheld hb with ⟨hj', hb, -⟩ | hb
      · exact ⟨hj.trans hj'.symm, ha.trans hb.symm⟩
      · exact absurd hb ((hloose hv).free j' b)
    · rcases hheld hb with ⟨-, -, hv⟩ | hb
      · exact absurd ha ((hloose hv).free j a)
      · exact hevolves.once j j' a b n hn ha hb

theorem fieldsAt_bindField (hk : k.Nests) {i : InstanceRef} (hj : j < k.instances.size)
    (hne : j ≠ i.index) (name : String) (v : Value) :
    (k.bindField i name v).fieldsAt j = k.fieldsAt j := by
  unfold bindField
  split
  · rename_i hi
    have hgrows := grows_copyForBinding hk v
    dsimp only
    rw [fieldsAt_setField _ (hi.trans_le hgrows.size_le), if_neg hne]
    exact hgrows.fieldsAt_eq hj
  · rfl

theorem fields_bindField (hk : k.Nests) {i : InstanceRef} (hi : i.index < k.instances.size)
    (name : String) (v : Value) :
    (k.bindField i name v).fields i = (k.fields i).insert name (k.copyForBinding v).1 := by
  have hgrows := grows_copyForBinding hk v
  have hself := (k.copyForBinding v).2.fieldsAt_setField (hi.trans_le hgrows.size_le) name
    (k.copyForBinding v).1 i.index
  rw [if_pos rfl, hgrows.fieldsAt_eq hi] at hself
  unfold bindField
  rw [if_pos hi]
  exact hself

theorem evolves_bindField (hk : k.Nests) (i : InstanceRef) (name : String) (v : Value) :
    k.Evolves (k.bindField i name v) := by
  unfold bindField
  split
  · rename_i hi
    exact (grows_copyForBinding hk v).setField hk hi name
  · exact .of_instances hk rfl

end Memory

end Classlet
