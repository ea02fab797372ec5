import Classlet.Proofs.Memory.Structs

/-! # The contents of values

What counts about a struct value is its class and what its fields show, not which instance it is.
`Memory.Shows` gives every value a content: struct values are taken apart, and all other values stay
as they are.  A copy shows what was copied (`shows_copyForBinding`), and a field that is bound to a
value shows the content of that value (`shows_bindField`). -/

namespace Classlet

/-- A value up to the identity of struct values. -/
inductive Content where
  | plain (v : Value)
  | struct (c : ClassRef) (fields : List (String × Content))

namespace Memory

variable {m n : Memory} {v w : Value} {x y : Content} {i : InstanceRef}
  {b b' : Bindings Value} {xs ys : Bindings Content} {name : String}

mutual

/-- The content of a value. -/
inductive Shows (m : Memory) : Value → Content → Prop
  | plain {v : Value} : v.isStruct = false → Shows m v (.plain v)
  | struct {i : InstanceRef} {xs : Bindings Content} : i.isStruct = true →
      i.index < m.instances.size → FieldsShow m (m.fields i) xs →
        Shows m (.instance i) (.struct i.ofClass xs)

/-- The contents of fields. -/
inductive FieldsShow (m : Memory) : Bindings Value → Bindings Content → Prop
  | nil : FieldsShow m [] []
  | cons {a : String} {v : Value} {x : Content} {b : Bindings Value} {xs : Bindings Content} :
      Shows m v x → FieldsShow m b xs → FieldsShow m ((a, v) :: b) ((a, x) :: xs)

end

mutual

theorem Shows.unique : ∀ {v : Value} {x y : Content}, m.Shows v x → m.Shows v y → x = y
  | _, _, _, .plain _, .plain _ => rfl
  | _, _, _, .plain h, .struct hi .. => absurd hi (ne_true_of_eq_false h)
  | _, _, _, .struct hi .., .plain h => absurd hi (ne_true_of_eq_false h)
  | _, _, _, .struct _ _ h, .struct _ _ h' => by rw [h.unique h']

theorem FieldsShow.unique : ∀ {b : Bindings Value} {xs ys : Bindings Content},
    m.FieldsShow b xs → m.FieldsShow b ys → xs = ys
  | _, _, _, .nil, .nil => rfl
  | _, _, _, .cons h hs, .cons h' hs' => by rw [h.unique h', hs.unique hs']

end

/-- What shows the same as an instance is that instance, or another one of its class with fields
that show the same. -/
theorem Shows.copy_of_instance (hi : m.Shows (.instance i) x) (hv : n.Shows v x) :
    v = .instance i ∨ ∃ j xs, v = .instance j ∧ j.ofClass = i.ofClass ∧
      m.FieldsShow (m.fields i) xs ∧ n.FieldsShow (n.fields j) xs := by
  cases hi with
  | plain _ =>
    cases hv
    exact .inl rfl
  | @struct _ xs hi _ hb =>
    right
    generalize hx : Content.struct i.ofClass xs = x at hv
    cases hv with
    | plain _ => cases hx
    | @struct j ys _ _ hb' =>
      obtain ⟨hclass, rfl⟩ := Content.struct.inj hx
      exact ⟨j, xs, rfl, hclass.symm, hb, hb'⟩

/-! ### The same content in another memory -/

mutual

/-- Struct values that hold each other and that have the same fields in `n` show in `n` what they
show in `m`. -/
theorem Shows.transfer {S : Nat → Prop}
    (hS : ∀ i, S i → i < m.instances.size → i < n.instances.size ∧ n.fieldsAt i = m.fieldsAt i ∧
      ∀ k ∈ (m.fieldsAt i).structs, S k) :
    ∀ {v : Value} {x : Content}, m.Shows v x → (∀ i, v.struct? = some i → S i) → n.Shows v x
  | _, _, .plain h, _ => .plain h
  | _, _, .struct (i := i) hi hlt hb, hv => by
      obtain ⟨hlt', hfields, hinner⟩ := hS i.index (hv _ (if_pos hi)) hlt
      refine .struct hi hlt' ?_
      rw [show n.fields i = m.fields i from hfields]
      exact hb.transfer hS hinner

theorem FieldsShow.transfer {S : Nat → Prop}
    (hS : ∀ i, S i → i < m.instances.size → i < n.instances.size ∧ n.fieldsAt i = m.fieldsAt i ∧
      ∀ k ∈ (m.fieldsAt i).structs, S k) :
    ∀ {b : Bindings Value} {xs : Bindings Content}, m.FieldsShow b xs →
      (∀ k ∈ b.structs, S k) → n.FieldsShow b xs
  | _, _, .nil, _ => .nil
  | _, _, .cons (v := v) h hs, hb => by
      rw [Bindings.structs_cons] at hb
      refine .cons (h.transfer hS fun i hi => hb i ?_)
        (hs.transfer hS fun k hk => hb k ?_)
      · exact List.mem_append_left _ (Option.mem_toList.mpr hi)
      · exact List.mem_append_right _ hk

end

/-- Instances have been added, and nothing has happened to those that were there. -/
structure Adds (m n : Memory) : Prop where
  classes : m.classes.toList <+: n.classes.toList
  instances : m.instances.toList <+: n.instances.toList

namespace Adds

theorem refl (m : Memory) : m.Adds m := ⟨List.prefix_rfl, List.prefix_rfl⟩

theorem trans {k : Memory} (h₁ : k.Adds m) (h₂ : m.Adds n) : k.Adds n :=
  ⟨h₁.classes.trans h₂.classes, h₁.instances.trans h₂.instances⟩

theorem fieldsAt (h : m.Adds n) {i : Nat} (hi : i < m.instances.size) :
    n.fieldsAt i = m.fieldsAt i :=
  fieldsAt_eq_of_lt h.instances hi

theorem transfers (h : m.Adds n) (i : Nat) (_ : True) (hi : i < m.instances.size) :
    i < n.instances.size ∧ n.fieldsAt i = m.fieldsAt i ∧ ∀ k ∈ (m.fieldsAt i).structs, True :=
  ⟨hi.trans_le h.instances.length_le, h.fieldsAt hi, fun _ _ => trivial⟩

theorem shows (h : m.Adds n) (hv : m.Shows v x) : n.Shows v x :=
  hv.transfer h.transfers fun _ _ => trivial

theorem fieldsShow (h : m.Adds n) (hb : m.FieldsShow b xs) : n.FieldsShow b xs :=
  hb.transfer h.transfers fun _ _ => trivial

end Adds

theorem adds_pushInstance (m : Memory) (b : Bindings Value) : m.Adds (m.pushInstance b) :=
  ⟨List.prefix_rfl, prefix_push _ _⟩

/-! ### Fields by name -/

theorem FieldsShow.get? (name : String) {b : Bindings Value} {xs : Bindings Content}
    (hb : m.FieldsShow b xs) : (b.get? name = none ∧ xs.get? name = none) ∨
      ∃ v x, b.get? name = some v ∧ xs.get? name = some x ∧ m.Shows v x := by
  induction b generalizing xs with
  | nil =>
    cases hb
    exact .inl ⟨rfl, rfl⟩
  | cons _ _ ih =>
    cases hb with
    | @cons other v x _ _ h hs =>
      rw [Bindings.get?, Bindings.get?]
      by_cases hname : other = name
      · rw [if_pos hname, if_pos hname]
        exact .inr ⟨v, x, rfl, rfl, h⟩
      · rw [if_neg hname, if_neg hname]
        exact ih hs

/-! ### Copies -/

section copies
variable {copy : Memory → Value → Value × Memory}
  (hadds : ∀ (k : Memory) (v : Value), k.Adds (copy k v).2)
  (hshows : ∀ (k : Memory) (v : Value) (x : Content), k.Shows v x →
    (copy k v).2.Shows (copy k v).1 x)
include hadds

theorem adds_copyFields : ∀ (b : Bindings Value) (k : Memory), k.Adds (copyFields copy k b).2
  | [], k => .refl k
  | (_, v) :: more, k => by
      rw [copyFields]
      exact (hadds k v).trans (adds_copyFields more _)

include hshows

theorem shows_copyFields : ∀ {b : Bindings Value} {xs : Bindings Content} {k : Memory},
    k.FieldsShow b xs → (copyFields copy k b).2.FieldsShow (copyFields copy k b).1 xs
  | _, _, _, .nil => .nil
  | _, _, k, .cons (v := v) (x := x) h hs => by
      rw [copyFields]
      dsimp only
      have hmore := (hadds k v).fieldsShow hs
      exact .cons ((adds_copyFields hadds _ _).shows (hshows k v x h)) (shows_copyFields hmore)

end copies

theorem adds_copyAt : ∀ (fuel : Nat) (k : Memory) (v : Value), k.Adds (copyAt fuel k v).2
  | 0, k, _ => .refl k
  | fuel + 1, k, v => by
      unfold copyAt
      split
      · split
        · exact (adds_copyFields (adds_copyAt fuel) _ k).trans (adds_pushInstance _ _)
        · exact .refl k
      · exact .refl k

theorem shows_copyAt : ∀ (fuel : Nat) (k : Memory) (v : Value) (x : Content), k.Shows v x →
    (copyAt fuel k v).2.Shows (copyAt fuel k v).1 x
  | 0, _, _, _, h => h
  | fuel + 1, k, _, _, .plain (v := v) hv => by
      cases v
      case «instance» i =>
        rw [copyAt, if_neg (ne_true_of_eq_false (show i.isStruct = false from hv))]
        exact .plain hv
      all_goals exact .plain hv
  | fuel + 1, k, _, _, .struct (i := i) hi hlt hb => by
      rw [copyAt, if_pos hi]
      dsimp only [copyInstance]
      have hcopied := shows_copyFields (adds_copyAt fuel) (shows_copyAt fuel) hb
      have hgrown := adds_copyFields (adds_copyAt fuel) (k.fields i) k
      generalize copyFields (copyAt fuel) k (k.fields i) = r at hcopied hgrown
      have hfields : (r.2.pushInstance r.1).fieldsAt r.2.instances.size = r.1 := by
        rw [fieldsAt_pushInstance, if_pos rfl]
      refine .struct (i := { i with index := r.2.instances.size }) hi (by simp [pushInstance]) ?_
      rw [show (r.2.pushInstance r.1).fields { i with index := r.2.instances.size } = r.1 from
        hfields]
      exact (adds_pushInstance r.2 r.1).fieldsShow hcopied

theorem adds_copyForBinding (m : Memory) (v : Value) : m.Adds (m.copyForBinding v).2 := by
  unfold copyForBinding
  split
  · exact adds_copyAt _ m v
  · exact .refl m

theorem shows_copyForBinding (h : m.Shows v x) :
    (m.copyForBinding v).2.Shows (m.copyForBinding v).1 x := by
  unfold copyForBinding
  split
  · exact shows_copyAt _ m v x h
  · exact h

/-- A value of `n` is what has been bound for a value of `m`: the value itself, or for a struct
value a new instance of its class that shows what the value showed. -/
structure Copied (m : Memory) (v : Value) (n : Memory) (w : Value) : Prop where
  same : v.isStruct = false → w = v
  new : ∀ i, v = .instance i → i.isStruct = true → ∃ j, w = .instance j ∧ j.ofClass = i.ofClass ∧
    j.isStruct = true ∧ m.instances.size ≤ j.index ∧ j.index < n.instances.size
  shows : ∀ x, m.Shows v x → n.Shows w x

theorem Copied.mono {k l : Memory} (h : m.Copied v n w) (hm : k.Adds m) (hn : n.Adds l) :
    k.Copied v l w where
  same := h.same
  new i hi hstruct := by
    obtain ⟨j, hj, hclass, hstruct', hle, hlt⟩ := h.new i hi hstruct
    exact ⟨j, hj, hclass, hstruct', hm.instances.length_le.trans hle,
      hlt.trans_le hn.instances.length_le⟩
  shows x hx := hn.shows (h.shows x (hm.shows hx))

theorem copied_copyForBinding (m : Memory) (v : Value) :
    m.Copied v (m.copyForBinding v).2 (m.copyForBinding v).1 where
  same hv := by rw [copyForBinding, if_neg (ne_true_of_eq_false hv)]
  new i hi hstruct := by
    subst hi
    have hcopy : (m.copyForBinding (.instance i)) =
        copyAt (m.instances.size + 1) m (.instance i) := if_pos hstruct
    rw [hcopy, copyAt, if_pos hstruct]
    have hgrown := adds_copyFields (adds_copyAt m.instances.size) (m.fields i) m
    exact ⟨_, rfl, rfl, hstruct, hgrown.instances.length_le, by simp [copyInstance, pushInstance]⟩
  shows _ hx := shows_copyForBinding hx

theorem shows_bindField (hm : m.Nests) (hi : i.index < m.instances.size) (h : m.Shows v x)
    (name : String) : ∃ w, (m.bindField i name v).Shows w x ∧
      (m.bindField i name v).fields i = (m.fields i).insert name w := by
  refine ⟨_, ?_, fields_bindField hm hi name v⟩
  have hgrows := grows_copyForBinding hm v
  have hshows := shows_copyForBinding h
  unfold bindField
  rw [if_pos hi]
  generalize m.copyForBinding v = r at hgrows hshows
  have hat := r.2.fieldsAt_setField (hi.trans_le hgrows.size_le) name r.1
  -- the copy is new all the way down, so that it is not changed with the field
  refine hshows.transfer (m := r.2) (n := r.2.setField i name r.1) (S := (m.instances.size ≤ ·))
    ?_ ?_
  · intro j hj hlt
    refine ⟨by simpa [setField] using hlt, ?_, fun k hk => (hgrows.inner j hj k hk).1⟩
    rw [hat, if_neg (by omega)]
  · exact fun j hj => (hgrows.unheld j (Option.mem_toList.mpr hj)).1

/-! ### Every value has a content -/

/-- A struct value is there. -/
def Knows (m : Memory) (v : Value) : Prop := ∀ i, v.struct? = some i → i < m.instances.size

theorem Shows.knows (h : m.Shows v x) : m.Knows v := by
  intro l hl
  cases h with
  | plain hv => cases (Value.struct?_eq_none hv).symm.trans hl
  | struct hi hlt _ =>
      cases (if_pos hi).symm.trans hl
      exact hlt

theorem Knows.mono (h : m.Knows v) (hle : m.instances.size ≤ n.instances.size) : n.Knows v :=
  fun i hi => (h i hi).trans_le hle

theorem FieldsShow.knows : ∀ {b : Bindings Value} {xs : Bindings Content}, m.FieldsShow b xs →
    ∀ p ∈ b, m.Knows p.2
  | _, _, .nil, _, hp => absurd hp List.not_mem_nil
  | _, _, .cons h hs, p, hp => by
      rcases List.mem_cons.mp hp with rfl | hp
      · exact h.knows
      · exact hs.knows p hp

theorem exists_fieldsShow : ∀ {b : Bindings Value}, (∀ p ∈ b, ∃ x, m.Shows p.2 x) →
    ∃ xs, m.FieldsShow b xs
  | [], _ => ⟨_, .nil⟩
  | (_, _) :: _, h => by
      obtain ⟨x, hx⟩ := h _ List.mem_cons_self
      obtain ⟨xs, hxs⟩ := exists_fieldsShow fun p hp => h p (List.mem_cons_of_mem _ hp)
      exact ⟨_, .cons hx hxs⟩

/-- Below an instance of `S` what is shown is taken apart by the rank. -/
theorem RankedOn.exists_shows {S : Nat → Prop} {rank : Nat → Nat} (hrank : m.RankedOn S rank)
    (hv : ∀ l, v.struct? = some l → l < m.instances.size ∧ S l) : ∃ x, m.Shows v x := by
  obtain ⟨rank, hrank, hle⟩ := hrank.exists_le
  have hbelow : ∀ r v, (∀ l, v.struct? = some l → l < m.instances.size ∧ S l ∧ rank l < r) →
      ∃ x, m.Shows v x := by
    intro r
    induction r with
    | zero =>
      intro v hv
      cases hstruct : v.struct? with
      | none => exact ⟨_, .plain (Value.isStruct_eq_false hstruct)⟩
      | some l => exact absurd (hv l hstruct).2.2 (Nat.not_lt_zero _)
    | succ r ih =>
      intro v hv
      cases hstruct : v.struct? with
      | none => exact ⟨_, .plain (Value.isStruct_eq_false hstruct)⟩
      | some l =>
        obtain ⟨i, rfl, hi, rfl⟩ := Value.struct?_eq_some hstruct
        obtain ⟨hlt, hS, hbound⟩ := hv i.index hstruct
        obtain ⟨xs, hxs⟩ := exists_fieldsShow (m := m) (b := m.fields i) fun p hp =>
          ih p.2 fun j hj => by
            obtain ⟨hjlt, hSj, hfall⟩ := hrank i.index hS j (List.mem_filterMap.mpr ⟨p, hp, hj⟩)
            exact ⟨hjlt, hSj, by omega⟩
        exact ⟨_, .struct hi hlt hxs⟩
  refine hbelow (m.instances.size + 1) v fun l hl => ?_
  exact ⟨(hv l hl).1, (hv l hl).2, Nat.lt_succ_of_le (hle l)⟩

/-- Where struct values nest without cycles, every value has a content. -/
theorem Nests.exists_shows (h : m.Nests) (hv : m.Knows v) : ∃ x, m.Shows v x := by
  obtain ⟨rank, hrank⟩ := h
  exact hrank.rankedOn.exists_shows fun l hl => ⟨hv l hl, trivial⟩

end Memory

end Classlet
