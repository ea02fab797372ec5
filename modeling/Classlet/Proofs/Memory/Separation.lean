import Mathlib
import Classlet.Proofs.Memory.Content

/-! # Copies of struct values are separate

The struct tree of a value are the instances reached from it through fields that hold struct values
(`Memory.InTree`).  A copy has a tree of its own, which consists of new instances and shows what the
original shows.  Writes to a field change one instance, so that writes to the instances of one of
the two trees leave the other as it is, however many they are (`Memory.Isolated`).

Nothing is assumed of how memory came about, but that references are to objects that are there
(`Memory.Backed`).  Copying goes down the tree with no other measure than the tree itself
(`Memory.CopiesTo`), so that it comes to an end when no instance in the tree holds itself, and only
then (`Memory.copy_ends_iff`).  The number of instances below is the measure. -/

namespace Classlet.Memory

variable {m n k : Memory} {v w : Value} {x : Content} {i j : InstanceRef} {S : Nat → Prop}

/-! ### Struct trees -/

/-- A field of the instance `l` holds the struct value `k`. -/
def Holds (m : Memory) (l k : Nat) : Prop := k ∈ (m.fieldsAt l).structs

/-- The instances reached from a value through fields that hold struct values. -/
inductive InTree (m : Memory) (v : Value) : InstanceRef → Prop
  | root {i : InstanceRef} : v = .instance i → i.isStruct = true → InTree m v i
  | field {i j : InstanceRef} {name : String} : InTree m v i →
      (name, .instance j) ∈ m.fields i → j.isStruct = true → InTree m v j

/-- The struct values in the fields of instances of `S` belong to `S`. -/
def Closed (m : Memory) (S : Nat → Prop) : Prop := ∀ i, S i → ∀ k, m.Holds i k → S k

theorem InTree.within (h : m.InTree v i) (hS : m.Closed S)
    (hv : ∀ k, v.struct? = some k → S k) : S i.index := by
  induction h with
  | root hroot hstruct =>
      subst hroot
      exact hv _ (if_pos hstruct)
  | @field i j name _ hmem hstruct ih =>
      exact hS i.index ih j.index (List.mem_filterMap.mpr ⟨_, hmem, if_pos hstruct⟩)

theorem InTree.transfer (h : m.InTree v i)
    (hsame : ∀ j, m.InTree v j → n.fields j = m.fields j) : n.InTree v i := by
  induction h with
  | root hroot hstruct => exact .root hroot hstruct
  | @field i j name hi hmem hstruct ih =>
      rw [← hsame i hi] at hmem
      exact .field ih hmem hstruct

/-- The tree of a value and the fields of its instances are the same in `n` as in `m`. -/
structure SameTree (m n : Memory) (v : Value) : Prop where
  tree : ∀ i, n.InTree v i ↔ m.InTree v i
  fields : ∀ i, m.InTree v i → n.fields i = m.fields i
  shows : ∀ x, m.Shows v x → n.Shows v x

theorem Closed.sameTree (hS : m.Closed S) (hv : ∀ k, v.struct? = some k → S k)
    (hle : m.instances.size ≤ n.instances.size)
    (hfields : ∀ i, S i → n.fieldsAt i = m.fieldsAt i) : m.SameTree n v := by
  have hS' : n.Closed S := fun i hi k hk => by
    rw [Holds, hfields i hi] at hk
    exact hS i hi k hk
  refine ⟨fun i => ⟨fun h => ?_, fun h => ?_⟩, fun i hi => ?_, fun x hx => ?_⟩
  · exact h.transfer fun j hj => (hfields j.index (hj.within hS' hv)).symm
  · exact h.transfer fun j hj => hfields j.index (hj.within hS hv)
  · exact hfields i.index (hi.within hS hv)
  · exact hx.transfer (fun i hi hlt => ⟨hlt.trans_le hle, hfields i hi, hS i hi⟩) hv

/-! ### Writes to fields -/

/-- A field of an instance and its new value. -/
structure FieldWrite where
  target : InstanceRef
  name : String
  value : Value

/-- Write fields, one after the other. -/
def setFields (m : Memory) (writes : List FieldWrite) : Memory :=
  writes.foldl (fun m u => m.setField u.target u.name u.value) m

theorem fieldsAt_setField_of_ne (m : Memory) {l : Nat} (h : i.index ≠ l) (name : String)
    (v : Value) : (m.setField i name v).fieldsAt l = m.fieldsAt l := by
  rw [fieldsAt, setField, Array.getElem?_modify, if_neg h, fieldsAt]

/-- Writes keep the number of instances, and the fields of the instances that are not written. -/
theorem setFields_spec : ∀ (writes : List FieldWrite) (m : Memory),
    (m.setFields writes).instances.size = m.instances.size ∧
      ∀ l, (∀ u ∈ writes, u.target.index ≠ l) → (m.setFields writes).fieldsAt l = m.fieldsAt l
  | [], _ => ⟨rfl, fun _ _ => rfl⟩
  | u :: more, m => by
      obtain ⟨hsize, hfields⟩ := setFields_spec more (m.setField u.target u.name u.value)
      refine ⟨hsize.trans Array.size_modify, fun l hl => ?_⟩
      obtain ⟨hu, hmore⟩ := List.forall_mem_cons.mp hl
      exact (hfields l hmore).trans (m.fieldsAt_setField_of_ne hu u.name u.value)

/-- Writes outside of what is closed leave the trees in it as they are. -/
theorem Closed.setFields (hS : m.Closed S) (hv : ∀ k, v.struct? = some k → S k)
    {writes : List FieldWrite} (hwrites : ∀ u ∈ writes, ¬S u.target.index) :
    m.SameTree (m.setFields writes) v := by
  obtain ⟨hsize, hfields⟩ := setFields_spec writes m
  refine hS.sameTree hv hsize.ge fun l hl => hfields l ?_
  rintro u hu rfl
  exact hwrites u hu hl

/-! ### The depth of what is shown -/

theorem FieldsShow.of_mem_structs {l : Nat} : ∀ {b : Bindings Value} {xs : Bindings Content},
    m.FieldsShow b xs → l ∈ b.structs →
      ∃ ys, m.FieldsShow (m.fieldsAt l) ys ∧ l < m.instances.size ∧ sizeOf ys < sizeOf xs
  | _, _, .cons h hs, hl => by
      rw [Bindings.structs_cons] at hl
      rcases List.mem_append.mp hl with hl | hl
      · cases h with
        | plain hv =>
            rw [Value.struct?_eq_none hv] at hl
            cases hl
        | @struct i ys hi hlt hb =>
            have hindex : (Value.instance i).struct? = some i.index := if_pos hi
            rw [hindex, Option.toList_some, List.mem_singleton] at hl
            subst hl
            refine ⟨ys, hb, hlt, ?_⟩
            simp only [List.cons.sizeOf_spec, Prod.mk.sizeOf_spec, Content.struct.sizeOf_spec]
            omega
      · obtain ⟨ys, hys, hlt, hsize⟩ := hs.of_mem_structs hl
        refine ⟨ys, hys, hlt, ?_⟩
        simp only [List.cons.sizeOf_spec]
        omega

/-- The fields of an instance show something. -/
def ClearAt (m : Memory) (l : Nat) : Prop := ∃ xs, m.FieldsShow (m.fieldsAt l) xs

/-- What is shown gets smaller from an instance to the struct values in its fields. -/
theorem exists_rankedOn_clearAt (m : Memory) : ∃ rank, m.RankedOn m.ClearAt rank := by
  classical
  let rank := fun l => if h : m.ClearAt l then sizeOf h.choose else 0
  have hrank : ∀ {l xs}, m.FieldsShow (m.fieldsAt l) xs → rank l = sizeOf xs := by
    intro l xs hxs
    have h : m.ClearAt l := ⟨xs, hxs⟩
    rw [show rank l = sizeOf h.choose from dif_pos h, h.choose_spec.unique hxs]
  refine ⟨rank, fun l hl k hk => ?_⟩
  obtain ⟨xs, hxs⟩ := hl
  obtain ⟨ys, hys, hlt, hsize⟩ := hxs.of_mem_structs hk
  rw [hrank hxs, hrank hys]
  exact ⟨hlt, ⟨ys, hys⟩, hsize⟩

/-- The struct values in memory that show something, and what they hold. -/
theorem closed_clearAt (m : Memory) : m.Closed fun l => m.ClearAt l ∧ l < m.instances.size := by
  obtain ⟨rank, hrank⟩ := m.exists_rankedOn_clearAt
  intro l hl k hk
  obtain ⟨hlt, hclear, -⟩ := hrank l hl.1 k hk
  exact ⟨hclear, hlt⟩

theorem Shows.clearAt (h : m.Shows v x) {l : Nat} (hl : v.struct? = some l) :
    m.ClearAt l ∧ l < m.instances.size := by
  cases h with
  | plain hv => cases (Value.struct?_eq_none hv).symm.trans hl
  | struct hi hlt hb =>
      cases (if_pos hi).symm.trans hl
      exact ⟨⟨_, hb⟩, hlt⟩

/-! ### Copies that come to an end -/

mutual

/-- The copy of `v` comes to an end, with `w` in the memory `n`. -/
inductive CopiesTo : Memory → Value → Memory → Value → Prop
  | plain {m : Memory} {v : Value} : v.isStruct = false → CopiesTo m v m v
  | struct {m n : Memory} {i : InstanceRef} {b : Bindings Value} : i.isStruct = true →
      FieldsCopyTo m (m.fields i) n b →
        CopiesTo m (.instance i) (n.pushInstance b) (.instance { i with index := n.instances.size })

/-- The copies of fields come to an end, one after the other. -/
inductive FieldsCopyTo : Memory → Bindings Value → Memory → Bindings Value → Prop
  | nil {m : Memory} : FieldsCopyTo m [] m []
  | cons {m n k : Memory} {name : String} {v w : Value} {b b' : Bindings Value} :
      CopiesTo m v n w → FieldsCopyTo n b k b' →
        FieldsCopyTo m ((name, v) :: b) k ((name, w) :: b')

end

mutual

theorem CopiesTo.unique : ∀ {m n n' : Memory} {v w w' : Value}, m.CopiesTo v n w →
    m.CopiesTo v n' w' → n = n' ∧ w = w'
  | _, _, _, _, _, _, .plain _, .plain _ => ⟨rfl, rfl⟩
  | _, _, _, _, _, _, .plain h, .struct hi _ => absurd hi (ne_true_of_eq_false h)
  | _, _, _, _, _, _, .struct hi _, .plain h => absurd hi (ne_true_of_eq_false h)
  | _, _, _, _, _, _, .struct _ h, .struct _ h' => by
      obtain ⟨rfl, rfl⟩ := h.unique h'
      exact ⟨rfl, rfl⟩

theorem FieldsCopyTo.unique : ∀ {m n n' : Memory} {b c c' : Bindings Value},
    m.FieldsCopyTo b n c → m.FieldsCopyTo b n' c' → n = n' ∧ c = c'
  | _, _, _, _, _, _, .nil, .nil => ⟨rfl, rfl⟩
  | _, _, _, _, _, _, .cons h hs, .cons h' hs' => by
      obtain ⟨rfl, rfl⟩ := h.unique h'
      obtain ⟨rfl, rfl⟩ := hs.unique hs'
      exact ⟨rfl, rfl⟩

end

mutual

theorem CopiesTo.adds : ∀ {m n : Memory} {v w : Value}, m.CopiesTo v n w → m.Adds n
  | _, _, _, _, .plain _ => .refl _
  | _, _, _, _, .struct _ h => h.adds.trans (adds_pushInstance _ _)

theorem FieldsCopyTo.adds : ∀ {m n : Memory} {b c : Bindings Value}, m.FieldsCopyTo b n c →
    m.Adds n
  | _, _, _, _, .nil => .refl _
  | _, _, _, _, .cons h hs => h.adds.trans hs.adds

end

/-- The struct value `v` and those in fields are there. -/
structure Backed (m : Memory) (v : Value) : Prop where
  value : m.Knows v
  fields : ∀ l k, m.Holds l k → k < m.instances.size

theorem Nests.backed (h : m.Nests) (hv : m.Knows v) : m.Backed v := by
  obtain ⟨rank, hrank⟩ := h
  exact ⟨hv, fun l k hk => (hrank l k hk).1⟩

theorem Backed.of_field (h : m.Backed v) {l : Nat} {p : String × Value} (hp : p ∈ m.fieldsAt l) :
    m.Backed p.2 :=
  ⟨fun k hk => h.fields l k (List.mem_filterMap.mpr ⟨p, hp, hk⟩), h.fields⟩

mutual

theorem CopiesTo.exists_shows : ∀ {k n : Memory} {v w : Value}, k.CopiesTo v n w → m.Adds k →
    m.Backed v → ∃ x, m.Shows v x
  | _, _, _, _, .plain hv, _, _ => ⟨_, .plain hv⟩
  | k, _, _, _, .struct (i := i) hi h, hk, hm => by
      have hlt := hm.value i.index (if_pos hi)
      have hfields : k.fields i = m.fields i := hk.fieldsAt hlt
      obtain ⟨xs, hxs⟩ := h.exists_shows hk fun p hp => hm.of_field (p := p) (hfields ▸ hp)
      exact ⟨_, .struct hi hlt (hfields ▸ hxs)⟩

theorem FieldsCopyTo.exists_shows : ∀ {k n : Memory} {b c : Bindings Value},
    k.FieldsCopyTo b n c → m.Adds k → (∀ p ∈ b, m.Backed p.2) → ∃ xs, m.FieldsShow b xs
  | _, _, _, _, .nil, _, _ => ⟨_, .nil⟩
  | _, _, _, _, .cons h hs, hk, hm => by
      obtain ⟨hv, hmore⟩ := List.forall_mem_cons.mp hm
      obtain ⟨x, hx⟩ := h.exists_shows hk hv
      obtain ⟨xs, hxs⟩ := hs.exists_shows (hk.trans h.adds) hmore
      exact ⟨_, .cons hx hxs⟩

end

theorem copyFields_ends {copy : Memory → Value → Value × Memory} : ∀ {b : Bindings Value}
    {k : Memory}, (∀ l p, k.Adds l → p ∈ b → l.CopiesTo p.2 (copy l p.2).2 (copy l p.2).1) →
      k.FieldsCopyTo b (copyFields copy k b).2 (copyFields copy k b).1
  | [], _, _ => .nil
  | (name, v) :: more, k, hcopy => by
      have hv := hcopy k (name, v) (.refl k) List.mem_cons_self
      refine .cons hv (copyFields_ends fun l p hl hp => ?_)
      exact hcopy l p (hv.adds.trans hl) (List.mem_cons_of_mem _ hp)

/-- A copy with fuel for the rank of a struct value comes to an end. -/
theorem copyAt_ends {rank : Nat → Nat} (hrank : m.RankedOn S rank) : ∀ (fuel : Nat) (k : Memory)
    (v : Value), m.Adds k → (∀ l, v.struct? = some l → l < m.instances.size ∧ S l ∧ rank l < fuel) →
      k.CopiesTo v (copyAt fuel k v).2 (copyAt fuel k v).1
  | 0, k, v, _, hv => by
      cases hstruct : v.struct? with
      | none => exact .plain (Value.isStruct_eq_false hstruct)
      | some l => exact absurd (hv l hstruct).2.2 (Nat.not_lt_zero _)
  | fuel + 1, k, v, hk, hv => by
      cases v
      case «instance» i =>
        rw [copyAt]
        dsimp only
        split
        · rename_i hstruct
          obtain ⟨hlt, hS, hfuel⟩ := hv i.index (if_pos hstruct)
          refine .struct hstruct (copyFields_ends fun l p hl hp => ?_)
          refine copyAt_ends hrank fuel l p.2 (hk.trans hl) fun j hj => ?_
          rw [show k.fields i = m.fields i from hk.fieldsAt hlt] at hp
          obtain ⟨hjlt, hSj, hfall⟩ := hrank i.index hS j (List.mem_filterMap.mpr ⟨p, hp, hj⟩)
          exact ⟨hjlt, hSj, by omega⟩
        · rename_i hstruct
          exact .plain (eq_false_of_ne_true hstruct)
      all_goals exact .plain rfl

theorem RankedOn.copy_ends {rank : Nat → Nat} (hrank : m.RankedOn S rank)
    (hv : ∀ l, v.struct? = some l → l < m.instances.size ∧ S l) :
    m.CopiesTo v (m.copyForBinding v).2 (m.copyForBinding v).1 := by
  unfold copyForBinding
  split
  · obtain ⟨rank, hrank, hle⟩ := hrank.exists_le
    exact copyAt_ends hrank _ m v (.refl m) fun l hl =>
      ⟨(hv l hl).1, (hv l hl).2, Nat.lt_succ_of_le (hle l)⟩
  · rename_i hstruct
    exact .plain (eq_false_of_ne_true hstruct)

/-! ### Trees without cycles -/

/-- No instance in the tree of a value holds itself, however many fields lie between. -/
def Treelike (m : Memory) (v : Value) : Prop :=
  ∀ i, m.InTree v i → ¬Relation.TransGen m.Holds i.index i.index

/-- What shows something is taken apart, so that nothing in it holds itself. -/
theorem Shows.treelike (h : m.Shows v x) : m.Treelike v := by
  obtain ⟨rank, hrank⟩ := m.exists_rankedOn_clearAt
  have hfall : ∀ {l k}, Relation.TransGen m.Holds l k → m.ClearAt l →
      m.ClearAt k ∧ rank k < rank l := by
    intro l k hpath hl
    induction hpath with
    | single hstep => exact (hrank _ hl _ hstep).2
    | tail _ hstep ih =>
      obtain ⟨hclear, hlt⟩ := (hrank _ ih.1 _ hstep).2
      exact ⟨hclear, hlt.trans ih.2⟩
  intro i hi hcycle
  exact lt_irrefl _ (hfall hcycle (hi.within m.closed_clearAt fun _ => h.clearAt).1).2

/-- In a tree without cycles the number of instances below falls from each instance to what it
holds. -/
theorem Treelike.exists_rankedOn (h : m.Treelike v) (hm : m.Backed v) :
    ∃ rank, m.RankedOn (fun l => ∃ i, m.InTree v i ∧ i.index = l) rank := by
  classical
  let below := fun l => (Finset.range m.instances.size).filter (Relation.TransGen m.Holds l)
  refine ⟨fun l => (below l).card, ?_⟩
  rintro _ ⟨i, hi, rfl⟩ k hk
  obtain ⟨p, hp, hstruct⟩ := List.mem_filterMap.mp hk
  obtain ⟨j, hj, hjstruct, rfl⟩ := Value.struct?_eq_some hstruct
  have hlt := hm.fields i.index j.index hk
  have hfield : (p.1, .instance j) ∈ m.fields i := hj ▸ hp
  have hjtree : m.InTree v j := .field hi hfield hjstruct
  refine ⟨hlt, ⟨j, hjtree, rfl⟩, Finset.card_lt_card ?_⟩
  refine (Finset.ssubset_iff_of_subset fun l hl => ?_).mpr ⟨j.index, ?_, ?_⟩
  · obtain ⟨hl, hpath⟩ := Finset.mem_filter.mp hl
    exact Finset.mem_filter.mpr ⟨hl, .head hk hpath⟩
  · exact Finset.mem_filter.mpr ⟨Finset.mem_range.mpr hlt, .single hk⟩
  · exact fun hmem => h j hjtree (Finset.mem_filter.mp hmem).2

theorem Shows.copy_ends (h : m.Shows v x) :
    m.CopiesTo v (m.copyForBinding v).2 (m.copyForBinding v).1 := by
  obtain ⟨rank, hrank⟩ := m.exists_rankedOn_clearAt
  exact hrank.copy_ends fun l hl => ⟨(h.clearAt hl).2, (h.clearAt hl).1⟩

/-- A copy comes to an end if no instance in the tree holds itself, and only then. -/
theorem copy_ends_iff (hm : m.Backed v) : (∃ n w, m.CopiesTo v n w) ↔ m.Treelike v := by
  constructor
  · rintro ⟨n, w, h⟩
    obtain ⟨x, hx⟩ := h.exists_shows (.refl m) hm
    exact hx.treelike
  · intro h
    obtain ⟨rank, hrank⟩ := h.exists_rankedOn hm
    refine ⟨_, _, hrank.copy_ends fun l hl => ?_⟩
    obtain ⟨i, rfl, hi, rfl⟩ := Value.struct?_eq_some hl
    exact ⟨hm.value i.index hl, i, .root rfl hi, rfl⟩

/-! ### Isolation -/

/-- The copy `w` in `n` of the struct value `v` in `m` shows what `v` showed, and has a tree of its
own. -/
structure Isolated (m : Memory) (v : Value) (n : Memory) (w : Value) : Prop where
  shows : ∃ x, m.Shows v x ∧ n.Shows w x
  original : m.SameTree n v
  old : ∀ i, n.InTree v i → i.index < m.instances.size
  new : ∀ i, n.InTree w i → m.instances.size ≤ i.index ∧ i.index < n.instances.size
  /-- Writes to the original leave the copy as it is. -/
  copyKept : ∀ writes : List FieldWrite, (∀ u ∈ writes, n.InTree v u.target) →
    n.SameTree (n.setFields writes) w
  /-- Writes to the copy leave the original as it is. -/
  originalKept : ∀ writes : List FieldWrite, (∀ u ∈ writes, n.InTree w u.target) →
    n.SameTree (n.setFields writes) v

theorem isolated_copyForBinding (h : m.Shows v x) :
    m.Isolated v (m.copyForBinding v).2 (m.copyForBinding v).1 := by
  have hadds := adds_copyForBinding m v
  obtain ⟨rank, hrank⟩ := m.exists_rankedOn_clearAt
  have hgrows := hrank.grows_copyForBinding fun l hl => (h.clearAt hl).1
  have hshows := shows_copyForBinding h
  generalize m.copyForBinding v = r at hadds hgrows hshows
  have hsame := m.closed_clearAt.sameTree (fun _ => h.clearAt)
    hadds.instances.length_le fun l hl => hadds.fieldsAt hl.2
  have hnew : r.2.Closed (m.instances.size ≤ ·) := fun l hl k hk => (hgrows.inner l hl k hk).1
  have hw : ∀ l, r.1.struct? = some l → m.instances.size ≤ l := fun l hl =>
    (hgrows.unheld l (Option.mem_toList.mpr hl)).1
  have hold : ∀ i, r.2.InTree v i → i.index < m.instances.size := fun i hi =>
    (((hsame.tree i).mp hi).within m.closed_clearAt fun _ => h.clearAt).2
  refine ⟨⟨x, h, hshows⟩, hsame, hold, fun i hi => ⟨?_, ?_⟩, fun writes hwrites => ?_, ?_⟩
  · exact hi.within hnew hw
  · exact (hi.within r.2.closed_clearAt fun _ => hshows.clearAt).2
  · exact hnew.setFields hw fun u hu => Nat.not_le.mpr (hold u.target (hwrites u hu))
  · -- what is written is new, and what `v` shows is old
    refine fun writes hwrites => Closed.setFields (S := fun l => m.ClearAt l ∧ l < m.instances.size)
      (fun l hl k hk => ?_) (fun _ => h.clearAt) fun u hu hin => ?_
    · rw [Holds, hadds.fieldsAt hl.2] at hk
      exact m.closed_clearAt l hl k hk
    · exact absurd ((hwrites u hu).within hnew hw) (Nat.not_le.mpr hin.2)

/-- **A copy is isolated from the original**, in every memory whose fields refer to instances that
are there.  The copy shows what the value shows, is new all the way down, and no writes to the one
are seen in the other.  There is a copy unless an instance in the tree of the value holds itself:
then copying does not end.  Any other value is bound itself. -/
theorem copies_are_isolated (m : Memory) (v : Value) :
    (v.isStruct = false → ∀ n w, m.CopiesTo v n w ↔ n = m ∧ w = v) ∧
      (m.Backed v → ((∃ n w, m.CopiesTo v n w) ↔ m.Treelike v) ∧
        ∀ n w, m.CopiesTo v n w → m.copyForBinding v = (w, n) ∧
          (v.isStruct = true → m.Isolated v n w)) := by
  refine ⟨fun hv n w => ⟨fun h => ?_, ?_⟩, fun hm => ⟨copy_ends_iff hm, fun n w h => ?_⟩⟩
  · exact h.unique (.plain hv)
  · rintro ⟨rfl, rfl⟩
    exact .plain hv
  · obtain ⟨x, hx⟩ := h.exists_shows (.refl m) hm
    obtain ⟨rfl, rfl⟩ := h.unique hx.copy_ends
    exact ⟨rfl, fun _ => isolated_copyForBinding hx⟩

/-- A segment that holds a point. -/
theorem copies_are_isolated_segment :
    let m : Memory := { Memory.initial with
      classes := Memory.initial.classes ++
        #[{ name := "Point", isStruct := true }, { name := "Segment", isStruct := true }]
      instances := #[[("x", .int 1)], [("start", .instance ⟨0, ⟨21⟩, true⟩)]] }
    let v : Value := .instance ⟨1, ⟨22⟩, true⟩
    m.Backed v ∧ m.CopiesTo v (m.copyForBinding v).2 (m.copyForBinding v).1 ∧
      m.Isolated v (m.copyForBinding v).2 (m.copyForBinding v).1 := by
  intro m v
  have hm : m.Backed v := by
    refine ⟨fun l hl => ?_, fun l k hk => ?_⟩
    · cases hl
      decide
    · match l with
      | 0 => cases hk
      | 1 =>
          cases List.mem_singleton.mp hk
          decide
      | l + 2 => cases hk
  have hcopy : m.CopiesTo v (m.copyForBinding v).2 (m.copyForBinding v).1 :=
    .struct rfl (.cons (.struct rfl (.cons (.plain rfl) .nil)) .nil)
  exact ⟨hm, hcopy, (((copies_are_isolated m v).2 hm).2 _ _ hcopy).2 rfl⟩

end Classlet.Memory
