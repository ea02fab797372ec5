import Classlet.Proofs.Assignment.Passage
import Classlet.Proofs.Run.Adequacy
import Classlet.Proofs.Run.Structs

/-! # The way of an assignment

An assignment to a place passes its way (`Passes`): it reads one container after the other, stores
the value in the last one, and stores struct values back into the containers before it as far as
nothing but indices lies between (`storedBack`).

The operators `[]` and `[]=` of an instance run user code, which has to keep some laws
(`OperatorLaws`).  Containers that are stored to must be apart from those that are read on the way
(`Passage.Lawful`).  Then the way leads to the assigned value afterwards (`Passes.leads`): by
induction on the way from its end, what a passage holds is right after its own store and is kept by
the stores before it. -/

namespace Classlet

open Eval

variable {e : Engine} {s t u : State} {v : Value} {x : Content}

/-! ### The way to a place -/

/-- The passages from a container along steps to the last one, and the state in which the last
container has been reached. -/
inductive Passes (e : Engine) (v : Value) :
    State → Value → List PlaceStep → PlaceStep → List Passage → State → Prop
  | last (s : State) (c : Value) (last : PlaceStep) : Passes e v s c [] last [⟨c, last, v⟩] s
  | step {s u t : State} {c d : Value} {st last : PlaceStep} {more : List PlaceStep}
      {way : List Passage} : st.read e c s = (.ok d, u) → Passes e v u d more last way t →
      Passes e v s c (st :: more) last (⟨c, st, d⟩ :: way) t

section ways
variable {c : Value} {steps : List PlaceStep} {last : PlaceStep} {way : List Passage}

theorem Passes.map_step (h : Passes e v s c steps last way u) :
    way.map (·.step) = steps ++ [last] := by
  induction h with
  | last => rfl
  | step _ _ ih => rw [List.map_cons, ih, List.cons_append]

theorem Passes.head (h : Passes e v s c steps last way u) :
    ∃ a rest, way = a :: rest ∧ a.container = c := by
  cases h with
  | last => exact ⟨_, _, rfl, rfl⟩
  | step => exact ⟨_, _, rfl, rfl⟩

theorem Passes.ne_nil (h : Passes e v s c steps last way u) : way ≠ [] := by
  obtain ⟨a, rest, rfl, -⟩ := h.head
  exact List.cons_ne_nil a rest

/-- Every passage leads to the container of the next one. -/
theorem Passes.isChain (h : Passes e v s c steps last way u) :
    way.IsChain fun a b => a.value = b.container := by
  induction h with
  | last => exact .singleton _
  | step _ hpass ih =>
    obtain ⟨a, rest, rfl, ha⟩ := hpass.head
    exact .cons_cons ha.symm ih

theorem exists_passes : ∀ {steps : List PlaceStep} {c : Value} {s t : State},
    walk e (fun c => last.store e c v) steps c s = (.ok (), t) →
      ∃ way u, Passes e v s c steps last way u
  | [], c, s, _, _ => ⟨_, _, .last s c last⟩
  | st :: more, c, s, _, h => by
      obtain ⟨d, u, hread, hmore⟩ := of_bind_ok h
      obtain ⟨⟨⟩, u', hinner, _⟩ := of_bind_ok hmore
      obtain ⟨way, u'', hpass⟩ := exists_passes hinner
      exact ⟨_, _, .step hread hpass⟩

end ways

/-- Whether the value that the first passage of a way leads to is stored back: it is a struct value,
and nothing but indices comes before the last step. -/
def storedBack : List Passage → Bool
  | a :: b :: more => a.value.isStruct && (a :: b :: more).dropLast.all (·.step.isIndex)
  | _ => false

theorem Passes.storedBack_eq {c d : Value} {st : PlaceStep} {steps : List PlaceStep}
    {last : PlaceStep} {way : List Passage} (h : Passes e v s d steps last way u) :
    storedBack (⟨c, st, d⟩ :: way) = (d.isStruct && (st :: steps).all (·.isIndex)) := by
  obtain ⟨a, rest, rfl, -⟩ := h.head
  have hall : ∀ ps : List Passage,
      ps.all (·.step.isIndex) = (ps.map (·.step)).all (·.isIndex) := fun ps => by
    rw [List.all_map]
    rfl
  rw [storedBack, hall, List.map_dropLast, List.map_cons, h.map_step, ← List.cons_append,
    List.dropLast_concat]

/-- What the passages of a way hold leads to a content. -/
def Leads (e : Engine) (s : State) : List Passage → Content → Prop
  | [], _ => False
  | [a], x => a.Holds e s x
  | a :: b :: more, x =>
    ∃ y, s.memory.Shows b.container y ∧ a.Holds e s y ∧ Leads e s (b :: more) x

/-! ### States on the way -/

/-- A state of a run in which some containers have been reached: they are there. -/
structure Met (cs : List Value) (s : State) : Prop where
  fit : s.Fit
  nests : s.memory.Nests
  has : ∀ c ∈ cs, s.memory.Has c

namespace Met

variable {c : Value} {cs ds : List Value}

theorem mono (h : Met cs s) (hsub : ds ⊆ cs) : Met ds s :=
  ⟨h.fit, h.nests, fun c hc => h.has c (hsub hc)⟩

theorem cons (h : Met cs s) (hc : s.memory.Has c) : Met (c :: cs) s :=
  ⟨h.fit, h.nests, List.forall_mem_cons.mpr ⟨hc, h.has⟩⟩

theorem exists_shows (h : Met cs s) (hc : c ∈ cs) : ∃ y, s.memory.Shows c y :=
  h.nests.exists_shows (h.has c hc).knows

/-- What has been reached stays there, whatever is computed. -/
theorem after {α : Type} {X : Eval α} {o : Outcome α} (h : Met cs s) (hX : Paced X)
    (ht : X s = (o, t)) : Met cs t := by
  let m : Moment := { state := s }
  have hturns := hX m h.fit
  obtain ⟨hnests, hle⟩ := hturns.leads.nests h.nests
  obtain rfl : (X s).2 = t := congrArg Prod.snd ht
  exact ⟨hturns.last, hnests, fun c hc => (h.has c hc).mono hle⟩

/-- An instance that no field holds is held by none afterwards. -/
theorem free {α : Type} {X : Eval α} {o : Outcome α} {n : Nat} (h : Met cs s) (hX : Paced X)
    (ht : X s = (o, t)) (hn : s.memory.Free n) : t.memory.Free n := by
  obtain rfl : (X s).2 = t := congrArg Prod.snd ht
  exact (hX { state := s } h.fit).leads.free h.nests hn

end Met

/-- What calls back into the evaluator changes no variables and takes turns, as engines do. -/
abbrev Engine.IsPaced (e : Engine) : Prop := e.Satisfies fun _ X => Isolated X ∧ Paced X

theorem engine_isPaced (settings : Settings) (loader : Loader) (fuel : Nat) :
    (engine settings loader fuel).IsPaced :=
  paced_rules.engine settings loader fuel

theorem PlaceStep.paced_read (he : e.IsPaced) (st : PlaceStep) (c : Value) :
    Paced (st.read e c) := by
  cases st with
  | attr name => exact (paced_rules.closed.getAttribute c name).2
  | index l => exact (paced_rules.closed.indexOperation he c l.value).2

theorem PlaceStep.paced_store (he : e.IsPaced) (st : PlaceStep) (c v : Value) :
    Paced (st.store e c v) := by
  cases st with
  | attr name => exact (paced_rules.closed.setAttribute c name v).2
  | index l => exact (paced_rules.closed.setIndexOperation he c l.value v).2

theorem paced_walk (he : e.IsPaced) {update : Value → Eval Unit}
    (hupdate : ∀ c, Paced (update c)) :
    ∀ (steps : List PlaceStep) (c : Value), Paced (walk e update steps c)
  | [], c => hupdate c
  | st :: more, c => by
      rw [walk]
      refine (st.paced_read he c).andThen fun d _ => ?_
      refine (paced_walk he hupdate more d).andThen fun _ _ => ?_
      exact paced_closed.ite (st.paced_store he c d) (paced_closed.pure ())

/-- A passage is passed: its value, which is no bound method, is read or stored. -/
def Passage.Passed (e : Engine) (b : Passage) (s t : State) : Prop :=
  b.value.isMethod = false ∧ b.step.read e b.container s = (.ok b.value, t) ∨
    b.store e s = (.ok (), t)

theorem Met.passed {cs : List Value} {b : Passage} (h : Met cs s) (he : e.IsPaced)
    (hb : b.Passed e s t) : Met cs t := by
  rcases hb with ⟨-, hread⟩ | hstore
  · exact h.after (b.step.paced_read he b.container) hread
  · exact h.after (b.step.paced_store he b.container b.value) hstore

/-! ### Lawful ways -/

/-- The laws of a passage through the operators `[]` and `[]=` of an instance, in states with a
property `P` and before the passages in `inner`. -/
structure OperatorLaws (e : Engine) (P : State → Prop) (a : Passage) (inner : List Passage) :
    Prop where
  /-- After a value has been stored, it is read, or a copy of it. -/
  stored : ∀ s t x, P s → Met [a.container] s → s.memory.Shows a.value x →
    a.store e s = (.ok (), t) →
    a.Holds e t x
  /-- Reading disturbs nothing. -/
  read : ∀ s t c x w, P s → Met [a.container] s → s.memory.Shows a.container x →
    s.memory.Shows c x →
    a.step.read e c s = (.ok w, t) → P t ∧ (∀ v y, s.memory.Shows v y → t.memory.Shows v y) ∧
      ∀ b ∈ inner, s.memory.Has b.container → ∀ y, b.Holds e s y → b.Holds e t y
  /-- What is read is there. -/
  found : ∀ s t, P s → Met [a.container] s → a.step.read e a.container s = (.ok a.value, t) →
    t.memory.Has a.value
  /-- What is not stored back is read again, and is read from copies of the container. -/
  again : storedBack (a :: inner) = false → ∀ s t, P s → Met [a.container] s →
    a.step.read e a.container s = (.ok a.value, t) → a.Returns e t
  copies : storedBack (a :: inner) = false → ∀ s x, P s → Met [a.container] s → a.Returns e s →
    s.memory.Shows a.value x → a.Holds e s x

/-- Two passages without user code and through different objects. -/
def Passage.Separate (a b : Passage) : Prop :=
  a.Plain ∧ b.Plain ∧ a.container.Apart b.container

/-- The laws of a passage before the passages in `inner`. -/
structure Passage.Lawful (e : Engine) (P : State → Prop) (a : Passage) (inner : List Passage) :
    Prop where
  stores : ∀ s t, P s → Met [a.container] s → a.store e s = (.ok (), t) → P t
  operator : ¬ a.Plain → OperatorLaws e P a inner
  /-- What lies in a list or in a field of a container on the way is there. -/
  found : a.Plain → inner ≠ [] → ∀ s, P s → Met [a.container] s →
    s.memory.read? a.step a.container = some a.value → s.memory.Has a.value
  /-- Storing back keeps what the containers behind it hold. -/
  apart : storedBack (a :: inner) = true → ∀ b ∈ inner, b.Separate a ∨
    ∀ s t, P s → Met [a.container, b.container] s → a.store e s = (.ok (), t) →
      (∀ y, s.memory.Shows b.container y → t.memory.Shows b.container y) ∧
        ∀ y, b.Holds e s y → b.Holds e t y
  /-- What is not stored back stays where it is, whatever happens behind it. -/
  stays : storedBack (a :: inner) = false → ∀ b ∈ inner, a.Separate b ∨
    ∀ s t, P s → Met [a.container, b.container] s → a.Returns e s → b.Passed e s t → a.Returns e t

/-- The laws of all passages of a way. -/
def LawfulWay (e : Engine) (P : State → Prop) : List Passage → Prop
  | [] => True
  | a :: inner => a.Lawful e P inner ∧ LawfulWay e P inner

/-! ### Reading along the way -/

section reading
variable {P : State → Prop} {c : Value} {way : List Passage}

theorem Passage.not_isMethod {a : Passage} (h : a.Plain ∨ a.Operator) :
    a.container.isMethod = false := by
  rcases h with h | ⟨⟨i, hi⟩, -⟩
  · cases h <;> rfl
  · rw [hi]
    rfl

theorem Leads.mono {way : List Passage}
    (hshows : ∀ b ∈ way, ∀ y, s.memory.Shows b.container y → t.memory.Shows b.container y)
    (hholds : ∀ b ∈ way, ∀ y, b.Holds e s y → b.Holds e t y) :
    ∀ {x : Content}, Leads e s way x → Leads e t way x := by
  induction way with
  | nil => exact id
  | cons a rest ih =>
    cases rest with
    | nil => exact fun h => hholds a List.mem_cons_self _ h
    | cons b more =>
      rintro x ⟨y, hy, ha, hmore⟩
      exact ⟨y, hshows b (List.mem_cons_of_mem _ List.mem_cons_self) y hy,
        hholds a List.mem_cons_self _ ha,
        ih (fun b hb => hshows b (List.mem_cons_of_mem _ hb))
          (fun b hb => hholds b (List.mem_cons_of_mem _ hb)) hmore⟩

/-- What a way leads to is read from its first container, and from copies of it. -/
theorem Leads.read (he : e.IsPaced) : ∀ {way : List Passage} {s : State} {c : Value}
    {x y : Content}, LawfulWay e P way → P s → Met (way.map (·.container)) s → Leads e s way x →
      (∀ a ∈ way.head?, s.memory.Shows a.container y) → s.memory.Shows c y →
        ∃ w u, follow e (way.map (·.step)) c s = (.ok w, u) ∧ u.memory.Shows w x
  | [a], s, c, x, y, _, _, _, h, ha, hc => by
      obtain ⟨w, u, hread, hw, -⟩ := h c y (ha a rfl) hc
      refine ⟨w, u, ?_, hw⟩
      rw [List.map_cons, List.map_nil, follow, bind_apply, hread]
      rfl
  | a :: b :: more, s, c, x, y, hlaw, hP, hmet, ⟨z, hz, hhold, hmore⟩, ha, hc => by
      obtain ⟨w, u, hread, hw, hplain⟩ := hhold c y (ha a rfl) hc
      have hbind : follow e ((a :: b :: more).map (·.step)) c s =
          follow e ((b :: more).map (·.step)) w u := by
        rw [List.map_cons, follow, bind_apply, hread]
      rw [hbind]
      have hinner : Met ((b :: more).map (·.container)) s :=
        hmet.mono (List.subset_cons_self _ _)
      by_cases hp : a.Plain
      · have hsame := read_of_read? e (hplain hp)
        rw [hread] at hsame
        cases hsame
        exact Leads.read he hlaw.2 hP hinner hmore (fun _ h => by cases h; exact hz) hw
      · obtain ⟨hPu, hshows, hholds⟩ := (hlaw.1.operator hp).read s u c y w hP
          (hmet.mono (by simp)) (ha a rfl) hc hread
        exact Leads.read he hlaw.2 hPu (hinner.after (a.step.paced_read he c) hread)
          (hmore.mono (fun b _ => hshows b.container) fun b hb =>
            hholds b hb (hinner.has _ (List.mem_map_of_mem hb)))
          (fun _ h => by cases h; exact hshows _ _ hz) hw

end reading

/-! ### Assigning along the way -/

section assigning
variable {P : State → Prop} {c : Value} {steps : List PlaceStep} {last : PlaceStep}
  {way : List Passage}

/-- The next container has been read without a change of the state, or with an operator, and is
there. -/
theorem Passage.read_next {a : Passage} {inner : List Passage} (he : e.IsPaced)
    (hlaw : a.Lawful e P inner) (hinner : inner ≠ []) (hP : P s) (hmet : Met [a.container] s)
    (hvalue : a.value.isMethod = false)
    (hread : a.step.read e a.container s = (.ok a.value, u)) :
    P u ∧ Met [a.container, a.value] u ∧
      (∀ v y, s.memory.Shows v y → u.memory.Shows v y) ∧
      (storedBack (a :: inner) = false → a.Returns e u) := by
  obtain ⟨z, hz⟩ := hmet.exists_shows (List.mem_singleton_self _)
  by_cases hp : a.Plain
  · obtain ⟨hread?, rfl⟩ := hp.read? hz hz hread hvalue
    have hhas := hlaw.found hp hinner _ hP hmet hread?
    exact ⟨hP, (hmet.cons hhas).mono (by simp), fun _ _ h => h, fun _ => ⟨_, hread⟩⟩
  · have hop := hlaw.operator hp
    obtain ⟨hPu, hshows, -⟩ := hop.read s u a.container z a.value hP hmet hz hz hread
    have hu := hmet.after (a.step.paced_read he a.container) hread
    exact ⟨hPu, (hu.cons (hop.found s u hP hmet hread)).mono (by simp), hshows,
      fun hback => hop.again hback s u hP hmet hread⟩

theorem Passage.holds_of_returns {a : Passage} {inner : List Passage} (hlaw : a.Lawful e P inner)
    (hP : P s) (hmet : Met [a.container] s) (hvalue : a.value.isMethod = false)
    (hback : storedBack (a :: inner) = false) (h : a.Returns e s)
    (hx : s.memory.Shows a.value x) : a.Holds e s x := by
  by_cases hp : a.Plain
  · obtain ⟨z, hz⟩ := hmet.exists_shows (List.mem_singleton_self _)
    obtain ⟨u, hread⟩ := h
    exact hp.holds (hp.read? hz hz hread hvalue).1 hx
  · exact (hlaw.operator hp).copies hback s x hP hmet h hx

theorem Passage.holds_store {a : Passage} {inner : List Passage} (hlaw : a.Lawful e P inner)
    (hP : P s) (hmet : Met [a.container] s) (hx : s.memory.Shows a.value x)
    (hstore : a.store e s = (.ok (), t)) : a.Holds e t x := by
  by_cases hp : a.Plain
  · exact hp.holds_store hmet.nests (hmet.has _ (List.mem_singleton_self _)) hx hstore
  · exact (hlaw.operator hp).stored s t x hP hmet hx hstore

theorem Passage.Plain.returns_spared {a b : Passage} (ha : a.Plain) (hb : b.Plain)
    (hmet : Met [a.container, b.container] s) (hspares : b.Spares s.memory a)
    (hvalue : a.value.isMethod = false)
    (hs : a.Returns e s)
    (hstep : b.Passed e s t) : a.Returns e t := by
  have hin := hmet.has a.container List.mem_cons_self
  rcases hstep with ⟨hmethod, hread⟩ | hstore
  · obtain ⟨z, hz⟩ := hmet.exists_shows (List.mem_cons_of_mem _ List.mem_cons_self)
    obtain ⟨-, rfl⟩ := hb.read? hz hz hread hmethod
    exact hs
  obtain ⟨z, hz⟩ := hmet.exists_shows List.mem_cons_self
  obtain ⟨u, hread⟩ := hs
  have hread' := (ha.read? hz hz hread hvalue).1
  by_cases hmiss : b.Misses s.memory a
  · rw [← ha.read?_store hb hmet.nests hin hmiss hstore] at hread'
    exact ⟨t, read_of_read? e hread'⟩
  · obtain ⟨hsame, hstruct⟩ := hspares.resolve_left hmiss
    unfold Passage.Misses at hmiss
    push Not at hmiss
    obtain ⟨spot, hb', ha'⟩ := hmiss
    have hself := ha.read?_store_self hb hmet.nests hin ha' hb' hstore
    rw [← hsame, (s.memory.copied_copyForBinding a.value).same hstruct] at hself
    exact ⟨t, read_of_read? e hself⟩

/-- A plain passage returns the same whatever happens at a separate one. -/
theorem Passage.Separate.returns {a b : Passage} (h : a.Separate b)
    (hmet : Met [a.container, b.container] s)
    (hvalue : a.value.isMethod = false) (hs : a.Returns e s) (hstep : b.Passed e s t) :
    a.Returns e t := by
  obtain ⟨ha, hb, hapart⟩ := h
  exact ha.returns_spared hb hmet (.inl (Passage.misses_of_apart _ hapart)) hvalue hs hstep

/-- Every container on a way is a list, an instance with an attribute or one with operators. -/
def Passable (way : List Passage) : Prop := ∀ a ∈ way, a.Plain ∨ a.Operator

/-- A container that comes next is no bound method. -/
theorem Passes.value_not_isMethod {d : Value} {more : List PlaceStep}
    (hpass : Passes e v s d more last way u) (hkind : Passable way) : d.isMethod = false := by
  obtain ⟨b, rest, rfl, rfl⟩ := hpass.head
  exact b.not_isMethod (hkind b List.mem_cons_self)

/-- What an assignment reads and stores along its way keeps what is kept by every read and store of
the passages. -/
theorem Passes.keeps (he : e.IsPaced) (hpass : Passes e v s c steps last way u)
    (hlaw : LawfulWay e P way) (hkind : Passable way) {Q : State → Prop}
    (hQ : ∀ b ∈ way, ∀ s t, P s → Met [b.container] s → Q s → b.Passed e s t → Q t)
    (hP : P s) (hmet : Met [c] s) (hs : Q s)
    (hwalk : walk e (fun c => last.store e c v) steps c s = (.ok (), t)) :
    P t ∧ Q t ∧ Met (way.map (·.container)) t := by
  induction hpass generalizing t with
  | last s c last =>
    exact ⟨hlaw.1.stores s t hP hmet hwalk, hQ _ List.mem_cons_self s t hP hmet hs (.inr hwalk),
      hmet.after (last.paced_store he c v) hwalk⟩
  | @step s u _ c d st last more way hread hpass ih =>
    obtain ⟨w, u', hread', hmore⟩ := of_bind_ok hwalk
    rw [hread] at hread'
    cases hread'
    obtain ⟨⟨⟩, t', hinner, hrest⟩ := of_bind_ok hmore
    have hkind' : Passable way := fun b hb => hkind b (List.mem_cons_of_mem _ hb)
    have hvalue := hpass.value_not_isMethod hkind'
    obtain ⟨hPu, hmetu, -⟩ := Passage.read_next he hlaw.1 hpass.ne_nil hP hmet hvalue hread
    have hQu := hQ _ List.mem_cons_self s u hP hmet hs (.inl ⟨hvalue, hread⟩)
    obtain ⟨hPt, hQt, hmett⟩ := ih hlaw.2 hkind' (fun b hb => hQ b (List.mem_cons_of_mem _ hb)) hPu
      (hmetu.mono (by simp)) hQu hinner
    have hwalked := paced_walk he (fun c => last.paced_store he c v) more d
    have hfirst : Met [c] t' := (hmetu.mono (by simp)).after hwalked hinner
    have hway : Met ((⟨c, st, d⟩ :: way).map (·.container)) t' :=
      hmett.cons (hfirst.has c (List.mem_singleton_self c))
    split at hrest
    · exact ⟨hlaw.1.stores t' t hPt hfirst hrest,
        hQ _ List.mem_cons_self t' t hPt hfirst hQt (.inr hrest),
        hway.after (st.paced_store he c d) hrest⟩
    · cases hrest
      exact ⟨hPt, hQt, hway⟩

/-- After an assignment, the way leads to the content of the assigned value. -/
theorem Passes.leads (he : e.IsPaced) (hpass : Passes e v s c steps last way u)
    (hlaw : LawfulWay e P way) (hkind : Passable way) (hP : P s) (hmet : Met [c] s)
    (hx : s.memory.Shows v x)
    (hwalk : walk e (fun c => last.store e c v) steps c s = (.ok (), t)) :
    Leads e t way x := by
  induction hpass generalizing t with
  | last s c last => exact Passage.holds_store (a := ⟨c, last, v⟩) hlaw.1 hP hmet hx hwalk
  | @step s u _ c d st last more way hread hpass ih =>
    obtain ⟨w, u', hread', hmore⟩ := of_bind_ok hwalk
    rw [hread] at hread'
    cases hread'
    obtain ⟨⟨⟩, t', hinner, hrest⟩ := of_bind_ok hmore
    have hback : storedBack (⟨c, st, d⟩ :: way) = (d.isStruct && (st :: more).all (·.isIndex)) :=
      hpass.storedBack_eq
    have hkind' : Passable way := fun b hb => hkind b (List.mem_cons_of_mem _ hb)
    have hvalue := hpass.value_not_isMethod hkind'
    obtain ⟨hPu, hmetu, hshows, hreturns⟩ := Passage.read_next he hlaw.1 hpass.ne_nil hP hmet hvalue
      hread
    have hcu : Met [c] u := hmetu.mono (by simp)
    have hdu : Met [d] u := hmetu.mono (by simp)
    have hleads := ih hlaw.2 hkind' hPu hdu (hshows _ _ hx) hinner
    obtain ⟨hPt, hct, hway⟩ := hpass.keeps he hlaw.2 hkind' (Q := Met [c])
      (fun _ _ _ _ _ _ hs hstep => hs.passed he hstep) hPu hdu hcu hinner
    have hpair : ∀ b ∈ way, Met [c, b.container] t' := fun b hb =>
      ⟨hct.fit, hct.nests, by simpa using ⟨hct.has c (List.mem_singleton_self c),
        hway.has _ (List.mem_map_of_mem hb)⟩⟩
    obtain ⟨b, rest, rfl, rfl⟩ := hpass.head
    obtain ⟨y, hy⟩ := hway.exists_shows List.mem_cons_self
    rw [← hback] at hrest
    cases hstored : storedBack (⟨c, st, b.container⟩ :: b :: rest) with
    | true =>
      rw [hstored, if_pos rfl] at hrest
      have hindex : st.isIndex = true := by
        rw [hstored, List.all_cons] at hback
        exact (Bool.and_eq_true _ _ ▸ (Bool.and_eq_true _ _ ▸ hback.symm).2).1
      have hkept : ∀ b' ∈ b :: rest,
          (∀ y, t'.memory.Shows b'.container y → t.memory.Shows b'.container y) ∧
            ∀ y, b'.Holds e t' y → b'.Holds e t y := by
        intro b' hb'
        rcases hlaw.1.apart hstored b' hb' with ⟨hplain', hplain, hapart⟩ | hlaw'
        · exact hplain.holds_missed hindex hplain' hct.nests (hway.has _ (List.mem_map_of_mem hb'))
            (Passage.misses_of_apart _ hapart) hrest
        · exact hlaw' t' t hPt (hpair b' hb') hrest
      exact ⟨y, (hkept b List.mem_cons_self).1 y hy,
        Passage.holds_store hlaw.1 hPt hct hy hrest,
        hleads.mono (fun b' hb' => (hkept b' hb').1) fun b' hb' => (hkept b' hb').2⟩
    | false =>
      rw [hstored] at hrest
      cases hrest
      -- the container is handed out again after all that has happened behind it
      have hreturns' : Met [c] t ∧ Passage.Returns e t ⟨c, st, b.container⟩ := by
        refine (hpass.keeps he hlaw.2 hkind'
          (Q := fun s => Met [c] s ∧ Passage.Returns e s ⟨c, st, b.container⟩) ?_ hPu hdu
          ⟨hcu, hreturns hstored⟩ hinner).2.1
        rintro b' hb' s₁ t₁ hP₁ hb₁ ⟨hc₁, hs₁⟩ hstep
        have hmet₁ : Met [c, b'.container] s₁ := hb₁.cons (hc₁.has c (List.mem_singleton_self c))
        refine ⟨hc₁.passed he hstep, ?_⟩
        rcases hlaw.1.stays hstored b' hb' with hseparate | hlaw'
        · exact hseparate.returns hmet₁ hvalue hs₁ hstep
        · exact hlaw' s₁ t₁ hP₁ hmet₁ hs₁ hstep
      exact ⟨y, hy, Passage.holds_of_returns hlaw.1 hPt hct hvalue hstored hreturns'.2 hy, hleads⟩

end assigning

end Classlet
