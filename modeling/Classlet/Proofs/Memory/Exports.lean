import Classlet.Module.Exports
import Mathlib.Data.List.Nodup

/-! # What a module exports

A module without a binding of `exports` exports what its top level binds.  A module that lists its
exports exports the names of the list, with their bindings, and nothing else
(`get?_selectExports`).  Names are taken out of the bindings as they are exported, so that the
second mention of a name is an error; this needs that no name is bound twice
(`Bindings.Distinct`).

A list is accepted if its entries are names that are bound, each listed once (`Selectable`).
Otherwise the first entry that `Offends` is reported (`selectExports_cases`). -/

namespace Classlet

namespace Bindings

variable {α : Type} {b : Bindings α} {name other : String}

/-- No name is bound twice. -/
def Distinct (b : Bindings α) : Prop := (b.map (·.1)).Nodup

theorem get?_eq_none : ∀ {b : Bindings α}, name ∉ b.map (·.1) → b.get? name = none
  | [], _ => rfl
  | (n, v) :: rest, h => by
      have hne : n ≠ name := fun he => h (he ▸ List.mem_cons_self)
      rw [get?, if_neg hne]
      exact get?_eq_none fun hm => h (List.mem_cons_of_mem _ hm)

theorem get?_append : ∀ b b' : Bindings α, (b ++ b').get? name = (b.get? name).or (b'.get? name)
  | [], _ => rfl
  | (n, v) :: rest, b' => by
      rw [List.cons_append, get?, get?, get?_append rest b']
      split <;> rfl

/-- A name that is bound once has the value that stands with it. -/
theorem Distinct.get?_of_mem {v : α} : ∀ {b : Bindings α}, b.Distinct → (name, v) ∈ b →
    b.get? name = some v
  | (n, w) :: rest, h, hm => by
      obtain ⟨hn, hrest⟩ := List.nodup_cons.mp h
      rcases List.mem_cons.mp hm with he | hm
      · cases he
        exact if_pos rfl
      · have hne : n ≠ name := fun he => hn (List.mem_map.mpr ⟨_, hm, he.symm⟩)
        rw [get?, if_neg hne]
        exact get?_of_mem hrest hm

theorem insert_of_new {v : α} : ∀ {b : Bindings α}, b.get? name = none →
    b.insert name v = b ++ [(name, v)]
  | [], _ => rfl
  | (n, w) :: rest, h => by
      rw [get?] at h
      split at h
      · cases h
      · rename_i hne
        rw [insert, if_neg hne, insert_of_new h]
        rfl

/-- Binding a name adds it to the names, unless it is there. -/
theorem map_fst_insert (name : String) (v : α) : ∀ b : Bindings α,
    (b.insert name v).map (·.1) = b.map (·.1) ∨
      name ∉ b.map (·.1) ∧ (b.insert name v).map (·.1) = b.map (·.1) ++ [name]
  | [] => .inr ⟨List.not_mem_nil, rfl⟩
  | (n, w) :: rest => by
      unfold insert
      by_cases hn : n = name
      · rw [if_pos hn]
        exact .inl rfl
      · rw [if_neg hn]
        rcases map_fst_insert name v rest with h | ⟨hfresh, h⟩
        · exact .inl (congrArg (n :: ·) h)
        · refine .inr ⟨fun hm => ?_, congrArg (n :: ·) h⟩
          rcases List.mem_cons.mp hm with he | hm
          · exact hn he.symm
          · exact hfresh hm

theorem Distinct.insert (h : b.Distinct) (name : String) (v : α) :
    (b.insert name v).Distinct := by
  unfold Distinct
  rcases map_fst_insert name v b with hsame | ⟨hfresh, hadded⟩
  · rw [hsame]
    exact h
  · rw [hadded]
    refine List.nodup_append.mpr ⟨h, List.nodup_singleton name, fun n hn m hm => ?_⟩
    rw [List.mem_singleton.mp hm]
    rintro rfl
    exact hfresh hn

theorem map_fst_erase (name : String) : ∀ b : Bindings α,
    ((b.erase name).map (·.1)).Sublist (b.map (·.1))
  | [] => .refl _
  | (n, v) :: rest => by
      unfold erase
      split
      · exact List.sublist_cons_self n _
      · exact (map_fst_erase name rest).cons_cons n

theorem Distinct.erase (h : b.Distinct) (name : String) : (b.erase name).Distinct :=
  List.Nodup.sublist (map_fst_erase name b) h

theorem Distinct.get?_erase_self : ∀ {b : Bindings α}, b.Distinct →
    (b.erase name).get? name = none
  | [], _ => rfl
  | (n, v) :: rest, h => by
      obtain ⟨hn, hrest⟩ := List.nodup_cons.mp h
      unfold Bindings.erase
      split
      · rename_i he
        subst he
        exact get?_eq_none hn
      · rename_i hne
        rw [get?, if_neg hne]
        exact get?_erase_self hrest

theorem get?_erase_of_ne (hne : name ≠ other) : ∀ b : Bindings α,
    (b.erase name).get? other = b.get? other
  | [] => rfl
  | (n, v) :: rest => by
      unfold erase
      split
      · rename_i he
        rw [get?, if_neg (he ▸ hne)]
      · rw [get?, get?, get?_erase_of_ne hne rest]

end Bindings

/-- **Listed names are exported**, with their bindings, and no others are. -/
theorem get?_selectExports {k : Memory} {exports : Bindings Value} (name : String) :
    ∀ {entries : List Value} {b exported : Bindings Value}, b.Distinct →
      selectExports k b exported entries = .ok exports →
      (.str name ∈ entries → (b.get? name).isSome ∧ exports.get? name = b.get? name) ∧
        (.str name ∉ entries → exports.get? name = exported.get? name)
  | [], _, _, _, h => by
      cases h
      exact ⟨fun hm => absurd hm List.not_mem_nil, fun _ => rfl⟩
  | v :: more, b, exported, hb, h => by
      unfold selectExports at h
      split at h
      case h_1 he => cases he
      case h_3 => cases h
      case h_2 n rest he =>
        cases he
        split at h
        · rename_i v hv
          obtain ⟨hlisted, hother⟩ := get?_selectExports name (hb.erase n) h
          by_cases he : n = name
          · subst he
            -- the name is gone from the bindings, so that it is not listed again
            have hmore : .str n ∉ more := by
              intro hm
              have hsome := (hlisted hm).1
              rw [hb.get?_erase_self] at hsome
              cases hsome
            refine ⟨fun _ => ⟨by rw [hv]; rfl, ?_⟩, fun hm => absurd List.mem_cons_self hm⟩
            rw [hother hmore, Bindings.get?_insert_self, hv]
          · have hne : Value.str name ≠ .str n := fun hv => he (by cases hv; rfl)
            rw [Bindings.get?_erase_of_ne he] at hlisted
            rw [Bindings.get?_insert_of_ne _ _ he] at hother
            refine ⟨fun hm => hlisted ?_, fun hm => hother fun h => hm (List.mem_cons_of_mem _ h)⟩
            exact (List.mem_cons.mp hm).resolve_left hne
        · cases h

theorem computeExports_spec {k : Memory} {b exports : Bindings Value} (hb : b.Distinct)
    (h : computeExports k b = .ok exports) :
    (b.get? exportsName = none → exports = b) ∧
      ∀ v, b.get? exportsName = some v → ∃ entries, exportEntries k v = .ok entries ∧
        ∀ name, (.str name ∈ entries → (b.get? name).isSome ∧ exports.get? name = b.get? name) ∧
          (.str name ∉ entries → exports.get? name = none) := by
  unfold computeExports at h
  constructor
  · intro hnone
    rw [hnone] at h
    exact (Except.ok.inj h).symm
  · intro v hv
    rw [hv] at h
    dsimp only at h
    cases hentries : exportEntries k v with
    | error cause =>
        rw [hentries] at h
        cases h
    | ok entries =>
        rw [hentries] at h
        exact ⟨entries, rfl, fun name => get?_selectExports name hb h⟩

/-! ### Which lists are accepted -/

/-- Entries that can be exported one by one: names that are bound, none of them twice. -/
structure Selectable (b : Bindings Value) (entries : List Value) : Prop where
  bound : ∀ entry ∈ entries, ∃ name, entry = .str name ∧ (b.get? name).isSome
  nodup : entries.Nodup

theorem selectable_nil (b : Bindings Value) : Selectable b [] :=
  ⟨nofun, List.nodup_nil⟩

/-- The first name can be exported, and the others when it is gone. -/
theorem selectable_cons {b : Bindings Value} {name : String} {more : List Value}
    (hb : b.Distinct) : Selectable b (.str name :: more) ↔
      (b.get? name).isSome ∧ Selectable (b.erase name) more := by
  constructor
  · rintro ⟨hbound, hnodup⟩
    obtain ⟨hfirst, hmore⟩ := List.nodup_cons.mp hnodup
    obtain ⟨n, he, hsome⟩ := hbound _ List.mem_cons_self
    cases he
    refine ⟨hsome, fun entry hentry => ?_, hmore⟩
    obtain ⟨other, rfl, hother⟩ := hbound entry (List.mem_cons_of_mem _ hentry)
    have hne : name ≠ other := fun he => hfirst (he ▸ hentry)
    exact ⟨other, rfl, by rwa [Bindings.get?_erase_of_ne hne]⟩
  · rintro ⟨hsome, hbound, hnodup⟩
    refine ⟨fun entry hentry => ?_, List.nodup_cons.mpr ⟨fun hmem => ?_, hnodup⟩⟩
    · rcases List.mem_cons.mp hentry with rfl | hentry
      · exact ⟨name, rfl, hsome⟩
      · obtain ⟨other, rfl, hother⟩ := hbound entry hentry
        refine ⟨other, rfl, ?_⟩
        by_cases hne : name = other
        · rwa [← hne]
        · rwa [Bindings.get?_erase_of_ne hne] at hother
    · obtain ⟨other, he, hother⟩ := hbound _ hmem
      cases he
      rw [hb.get?_erase_self] at hother
      cases hother

/-- What is wrong with an entry behind others that can be exported. -/
inductive Offends (m : Memory) (b : Bindings Value) (before : List Value) : Value → Cause → Prop
  | type {entry : Value} (h : ∀ name, entry ≠ .str name) :
    Offends m b before entry (.exportEntryType (m.typeName entry))
  | unbound {name : String} (h : b.get? name = none) :
    Offends m b before (.str name) (.undefinedExport name)
  | again {name : String} (h : .str name ∈ before) :
    Offends m b before (.str name) (.undefinedExport name)

/-- A name that is taken out of the bindings offends as a name that was listed before. -/
theorem Offends.of_erase {m : Memory} {b : Bindings Value} {before : List Value} {name : String}
    {entry : Value} {cause : Cause} (h : Offends m (b.erase name) before entry cause) :
    Offends m b (.str name :: before) entry cause := by
  cases h with
  | type h => exact .type h
  | unbound h =>
    rename_i other
    by_cases hne : name = other
    · exact .again (hne ▸ List.mem_cons_self)
    · rw [Bindings.get?_erase_of_ne hne] at h
      exact .unbound h
  | again h => exact .again (List.mem_cons_of_mem _ h)

/-- Either all entries are exported, or the first one that offends is reported. -/
theorem selectExports_cases (m : Memory) (entries : List Value) {b : Bindings Value}
    (exported : Bindings Value) (hb : b.Distinct) :
    (Selectable b entries ∧ ∃ exports, selectExports m b exported entries = .ok exports) ∨
    ∃ before entry after cause, entries = before ++ entry :: after ∧ Selectable b before ∧
      Offends m b before entry cause ∧ selectExports m b exported entries = .error cause := by
  induction entries generalizing b exported with
  | nil => exact .inl ⟨selectable_nil b, exported, rfl⟩
  | cons v more ih =>
    by_cases hname : ∃ name, v = .str name
    · obtain ⟨name, rfl⟩ := hname
      rw [selectExports]
      cases hv : b.get? name with
      | none => exact .inr ⟨[], .str name, more, _, rfl, selectable_nil b, .unbound hv, rfl⟩
      | some w =>
        have hsome : (b.get? name).isSome := by rw [hv]; rfl
        rcases ih (exported.insert name w) (hb.erase name) with
          ⟨hmore, hok⟩ | ⟨before, entry, after, cause, hmore, hbefore, hoffends, herror⟩
        · exact .inl ⟨(selectable_cons hb).mpr ⟨hsome, hmore⟩, hok⟩
        · exact .inr ⟨.str name :: before, entry, after, cause, by rw [hmore]; rfl,
            (selectable_cons hb).mpr ⟨hsome, hbefore⟩, hoffends.of_erase, herror⟩
    · have htype : ∀ name, v ≠ .str name := fun name h => hname ⟨name, h⟩
      refine .inr ⟨[], v, more, _, rfl, selectable_nil b, .type htype, ?_⟩
      cases v with
      | str name => exact absurd rfl (htype name)
      | _ => rfl

theorem Offends.not_selectable {m : Memory} {b : Bindings Value} {before after : List Value}
    {entry : Value} {cause : Cause} (h : Offends m b before entry cause) :
    ¬ Selectable b (before ++ entry :: after) := by
  rintro ⟨hbound, hnodup⟩
  obtain ⟨name, hname, hsome⟩ := hbound entry (by simp)
  cases h with
  | type h => exact h name hname
  | unbound h =>
    cases hname
    rw [h] at hsome
    cases hsome
  | again h => exact (List.nodup_append.mp hnodup).2.2 _ h _ List.mem_cons_self rfl

/-- An entry that is no text is an error of its type, one that is a name an error of the import. -/
theorem Offends.kind {m : Memory} {b : Bindings Value} {before : List Value} {entry : Value}
    {cause : Cause} (h : Offends m b before entry cause) :
    ((∀ name, entry ≠ .str name) ∧ cause.kind = .type) ∨
      (∃ name, entry = .str name) ∧ cause.kind = .imports := by
  cases h with
  | type h => exact .inl ⟨h, rfl⟩
  | unbound h => exact .inr ⟨⟨_, rfl⟩, rfl⟩
  | again h => exact .inr ⟨⟨_, rfl⟩, rfl⟩

/-- A list or a tuple, with what it holds. -/
inductive Memory.Lists (m : Memory) : Value → List Value → Prop
  | list (l : ListRef) : Lists m (.list l) (m.elements l).toList
  | tuple (vs : List Value) : Lists m (.tuple vs) vs

theorem exportEntries_of_lists {m : Memory} {v : Value} {entries : List Value}
    (h : m.Lists v entries) : exportEntries m v = .ok entries := by
  cases h <;> rfl

theorem exportEntries_of_not_lists {m : Memory} {v : Value} (h : ∀ entries, ¬ m.Lists v entries) :
    exportEntries m v = .error (.exportsType (m.typeName v)) := by
  cases v with
  | list l => exact absurd (.list l) (h _)
  | tuple vs => exact absurd (.tuple vs) (h vs)
  | _ => rfl

theorem computeExports_of_lists {m : Memory} {b : Bindings Value} {v : Value}
    {entries : List Value} (hv : b.get? exportsName = some v) (h : m.Lists v entries) :
    computeExports m b = selectExports m b [] entries := by
  rw [computeExports, hv]
  dsimp only
  rw [exportEntries_of_lists h]

/-- **What a module exports.**  Without `exports` it is everything.  A list or a tuple is accepted
exactly if its entries are names that are bound, none of them twice, and then the listed names are
exported, with their values; otherwise the error is about the first entry that cannot be exported,
with what is before it.  Any other value of `exports` is an error of its type. -/
theorem exports_are_listed_once {m : Memory} {b : Bindings Value} (hb : b.Distinct) :
    (b.get? exportsName = none → computeExports m b = .ok b) ∧
    ∀ v, b.get? exportsName = some v →
      (∀ entries, m.Lists v entries →
        ((∃ exports, computeExports m b = .ok exports) ↔ Selectable b entries) ∧
        (∀ exports, computeExports m b = .ok exports → ∀ name,
          (.str name ∈ entries → exports.get? name = b.get? name) ∧
          (.str name ∉ entries → exports.get? name = none)) ∧
        ∀ cause, computeExports m b = .error cause → ∃ before entry after,
          entries = before ++ entry :: after ∧ Selectable b before ∧
          Offends m b before entry cause ∧
          (((∀ name, entry ≠ .str name) ∧ cause.kind = .type) ∨
            (∃ name, entry = .str name) ∧ cause.kind = .imports)) ∧
      ((∀ entries, ¬ m.Lists v entries) →
        computeExports m b = .error (.exportsType (m.typeName v)) ∧
        (Cause.exportsType (m.typeName v)).kind = .type) := by
  refine ⟨fun hnone => by rw [computeExports, hnone], fun v hv =>
    ⟨fun entries hlists => ?_, fun hother => ⟨?_, rfl⟩⟩⟩
  · have hselect := computeExports_of_lists hv hlists
    rcases selectExports_cases m entries [] hb with
      ⟨hselectable, hok⟩ | ⟨before, entry, after, cause, rfl, hbefore, hoffends, herror⟩
    · refine ⟨⟨fun _ => hselectable, fun _ => hselect ▸ hok⟩, fun exports h name => ?_,
        fun cause h => ?_⟩
      · obtain ⟨hlisted, hother⟩ := get?_selectExports name hb (hselect ▸ h)
        exact ⟨fun hm => (hlisted hm).2, hother⟩
      · obtain ⟨exports, hok⟩ := hok
        rw [hselect, hok] at h
        cases h
    · rw [hselect, herror]
      refine ⟨⟨nofun, fun h => absurd h hoffends.not_selectable⟩, nofun, fun cause' h => ?_⟩
      cases h
      exact ⟨before, entry, after, rfl, hbefore, hoffends, hoffends.kind⟩
  · rw [computeExports, hv]
    dsimp only
    rw [exportEntries_of_not_lists hother]

/-- The bindings of a module that exports `x` and keeps `y`. -/
def exportingX : Bindings Value :=
  [("x", .int 1), ("y", .int 2), (exportsName, .tuple [.str "x"])]

theorem exports_are_listed_once_kept_name : exportingX.Distinct ∧
    ∃ exports, computeExports .initial exportingX = .ok exports ∧
      exports.get? "x" = some (.int 1) ∧ exports.get? "y" = none := by
  have hdistinct : exportingX.Distinct := by unfold Bindings.Distinct; decide
  obtain ⟨hok, hnames, -⟩ := ((exports_are_listed_once hdistinct).2 _ rfl).1 [.str "x"] (.tuple _)
  have hbound : ∀ entry ∈ [Value.str "x"], ∃ name, entry = .str name ∧
      (exportingX.get? name).isSome :=
    fun entry hentry => ⟨"x", List.mem_singleton.mp hentry, rfl⟩
  obtain ⟨exports, hexports⟩ := hok.mpr ⟨hbound, List.nodup_singleton _⟩
  exact ⟨hdistinct, exports, hexports, (hnames exports hexports "x").1 List.mem_cons_self,
    (hnames exports hexports "y").2 (by simp)⟩

/-- A name that is listed twice is bound, and reported as undefined. -/
theorem name_listed_twice_is_undefined :
    let b : Bindings Value := [("x", .int 1), (exportsName, .tuple [.str "x", .str "x"])]
    (b.get? "x").isSome ∧ computeExports .initial b = .error (.undefinedExport "x") := by
  exact ⟨rfl, rfl⟩

end Classlet
