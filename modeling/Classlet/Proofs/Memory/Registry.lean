import Classlet.Proofs.Error.Handlers

/-! # The order of the registered classes

A class names as its base a class that is there already, so the classes form a forest, and
`Memory.isA` is the order of that forest: `d` is above `c` if it is `c` itself or above the base of
`c` (`Memory.Descends.isA_iff`).  The other questions about classes are questions about this order.
`Memory.isBaseOf` is its strict part, a handler takes what lies below its class, and an attribute is
that of the nearest class above that has the name.

The built-in classes that are no error classes refuse to be a base.  So nothing of theirs lies above
a class that a program makes, and such a class is constructed only as an error.

Each request keeps what holds of a class and its base (`Memory.Lineage`); the order follows from it
for every registry (`Memory.Registry.ordered`). -/

namespace Classlet.Memory

variable {m n : Memory} {c d e : ClassRef}

/-! ### Requests -/

/-- What is asked for when a class is made. -/
structure ClassRequest where
  name : String
  attributes : Bindings Value := []
  isStruct : Bool := false
  base : Option ClassRef := none

/-- The answer to a request for a class. -/
def answer (m : Memory) (r : ClassRequest) : Except Cause (ClassRef × Memory) :=
  m.newClass r.name r.attributes r.isStruct r.base

/-- Memory after a request, granted or refused. -/
def request (m : Memory) (r : ClassRequest) : Memory :=
  match m.answer r with
  | .ok (_, n) => n
  | .error _ => m

def Registered (m : Memory) (c : ClassRef) : Prop := c.index < m.classes.size

instance (m : Memory) (c : ClassRef) : Decidable (m.Registered c) :=
  inferInstanceAs (Decidable (_ < _))

/-- What a sequence of requests makes of the built-in classes.  A base is a class that is there. -/
inductive Registry : Memory → Prop
  | fresh : Registry .initial
  | request {m : Memory} (r : ClassRequest) (h : Registry m) (hb : ∀ b ∈ r.base, m.Registered b) :
      Registry (m.request r)

/-- The class that a granted request makes. -/
def ClassRequest.made (r : ClassRequest) : ClassInfo :=
  { name := r.name, attributes := r.attributes, base := r.base, isStruct := r.isStruct }

/-- A base that is built in and no error class is refused, and nothing else is. -/
theorem answer_cases (m : Memory) (r : ClassRequest) :
    (∃ b, r.base = some b ∧ (m.classInfo b).isBuiltin = true ∧ m.isErrorClass b = false ∧
        m.answer r = .error (.builtinBase (m.classInfo b).name)) ∨
      ((∀ b, r.base = some b → (m.classInfo b).isBuiltin = true → m.isErrorClass b = true) ∧
        m.answer r = .ok (⟨m.classes.size⟩, { m with classes := m.classes.push r.made })) := by
  have hgranted : newClass.add m r.name r.attributes r.isStruct r.base =
      (⟨m.classes.size⟩, { m with classes := m.classes.push r.made }) := rfl
  cases hbase : r.base with
  | none =>
      rw [hbase] at hgranted
      refine .inr ⟨fun _ h => ?_, ?_⟩
      · cases h
      · rw [answer, newClass.eq_def, hbase, ← hgranted]
  | some b =>
      rw [hbase] at hgranted
      by_cases hb : ((m.classInfo b).isBuiltin && !m.isErrorClass b) = true
      · obtain ⟨hbuiltin, herror⟩ := Bool.and_eq_true_iff.mp hb
        refine .inl ⟨b, rfl, hbuiltin, by simpa using herror, ?_⟩
        rw [answer, newClass.eq_def, hbase]
        exact if_pos hb
      · refine .inr ⟨fun b' h hbuiltin => ?_, ?_⟩
        · cases h
          simpa [hbuiltin] using hb
        · rw [answer, newClass.eq_def, hbase, ← hgranted]
          exact if_neg hb

theorem request_of_refused {r : ClassRequest} {cause : Cause} (h : m.answer r = .error cause) :
    m.request r = m := by
  rw [request, h]

/-- A request is refused exactly if its base is built in and no error class. -/
theorem refused_iff (m : Memory) (r : ClassRequest) :
    (∃ cause, m.answer r = .error cause) ↔
      ∃ b, r.base = some b ∧ (m.classInfo b).isBuiltin = true ∧ m.isErrorClass b = false := by
  rcases answer_cases m r with ⟨b, hb, hbuiltin, herror, h⟩ | ⟨hbase, h⟩
  · exact ⟨fun _ => ⟨b, hb, hbuiltin, herror⟩, fun _ => ⟨_, h⟩⟩
  · constructor
    · rintro ⟨_, hrefused⟩
      cases h.symm.trans hrefused
    · rintro ⟨b, hb, hbuiltin, herror⟩
      rw [hbase b hb hbuiltin] at herror
      cases herror

theorem keeps_push (m : Memory) (d : ClassInfo) :
    m.Keeps { m with classes := m.classes.push d } :=
  { Keeps.refl m with classes := prefix_push m.classes d }

theorem keeps_request (m : Memory) (r : ClassRequest) : m.Keeps (m.request r) := by
  rcases answer_cases m r with ⟨_, -, -, -, h⟩ | ⟨-, h⟩
  · rw [request_of_refused h]
    exact .refl m
  · rw [request, h]
    exact m.keeps_push r.made

theorem classInfo_push (m : Memory) (info : ClassInfo) (c : ClassRef) :
    ({ m with classes := m.classes.push info } : Memory).classInfo c =
      if c.index = m.classes.size then info else m.classInfo c := by
  simp only [classInfo, Array.getElem?_push]
  split <;> rfl

theorem classInfo_of_not_registered (h : ¬m.Registered c) : m.classInfo c = default := by
  rw [classInfo, Array.getElem?_eq_none (Nat.le_of_not_lt h)]
  rfl

/-! ### One step up the chain -/

namespace Descends
variable (h : m.Descends)
include h

/-- Any fuel beyond the age of a class gives its whole chain. -/
theorem chainFrom_eq : ∀ (fuel more : Nat) (c : ClassRef), c.index < fuel → c.index < more →
    m.chainFrom fuel c = m.chainFrom more c
  | fuel + 1, more + 1, c, hfuel, hmore => by
      rw [chainFrom, chainFrom]
      cases hb : (m.classInfo c).base with
      | none => rfl
      | some b =>
          have hlt := h c b hb
          have hrest := chainFrom_eq fuel more b (by omega) (by omega)
          exact congrArg (c :: ·) hrest

theorem chain_eq_cons (c : ClassRef) :
    m.chain c = c :: (m.classInfo c).base.elim [] m.chain := by
  rw [chain_eq]
  cases hb : (m.classInfo c).base with
  | none => rfl
  | some b =>
      have hrest := h.chainFrom_eq c.index (b.index + 1) b (h c b hb) (Nat.lt_succ_self _)
      exact congrArg (c :: ·) hrest

/-- Induction up the chain: what passes from the base of a class to the class holds of all. -/
theorem induction {P : ClassRef → Prop}
    (step : ∀ c, (∀ b, (m.classInfo c).base = some b → P b) → P c) (c : ClassRef) : P c :=
  step c fun b hb =>
    have := h c b hb
    induction step b
termination_by c.index

/-- What lies strictly above a class is its base and what is above that. -/
theorem isBaseOf_iff :
    m.isBaseOf d c = true ↔ ∃ b, (m.classInfo c).base = some b ∧ m.isA b d = true := by
  rw [isBaseOf, h.chain_eq_cons c, List.tail_cons]
  cases (m.classInfo c).base <;> simp [isA]

/-- A class is below itself and below what is above its base. -/
theorem isA_iff : m.isA c d = true ↔ d = c ∨ m.isBaseOf d c = true := by
  rw [isA, isBaseOf, h.chain_eq_cons c, List.tail_cons, List.contains_cons, Bool.or_eq_true,
    beq_iff_eq]

theorem isA_of_base {b : ClassRef} (hb : (m.classInfo c).base = some b) (hd : m.isA b d = true) :
    m.isA c d = true :=
  h.isA_iff.mpr (.inr (h.isBaseOf_iff.mpr ⟨b, hb, hd⟩))

/-! ### The order -/

theorem isA_refl (c : ClassRef) : m.isA c c = true := h.isA_iff.mpr (.inl rfl)

theorem isA_trans : m.isA c d = true → m.isA d e = true → m.isA c e = true := by
  intro hcd hde
  induction c using h.induction with
  | step c ih =>
      rcases h.isA_iff.mp hcd with rfl | hd
      · exact hde
      · obtain ⟨b, hb, hbd⟩ := h.isBaseOf_iff.mp hd
        exact h.isA_of_base hb (ih b hb hbd)

theorem index_le_of_isA (hd : m.isA c d = true) : d.index ≤ c.index :=
  h.index_le_of_mem_chainFrom (c.index + 1) (List.contains_iff_mem.mp hd)

theorem index_lt_of_isBaseOf (hd : m.isBaseOf d c = true) : d.index < c.index := by
  obtain ⟨b, hb, hbd⟩ := h.isBaseOf_iff.mp hd
  exact (h.index_le_of_isA hbd).trans_lt (h c b hb)

/-- What lies strictly above is what is above and not below. -/
theorem isBaseOf_iff_isA :
    m.isBaseOf d c = true ↔ m.isA c d = true ∧ m.isA d c = false := by
  rw [h.isA_iff, ← Bool.not_eq_true]
  constructor
  · intro hd
    refine ⟨.inr hd, fun hc => ?_⟩
    have hlt := h.index_lt_of_isBaseOf hd
    have hle := h.index_le_of_isA hc
    omega
  · rintro ⟨rfl | hd, hc⟩
    · exact absurd (h.isA_refl d) hc
    · exact hd

theorem isA_antisymm (hcd : m.isA c d = true) (hdc : m.isA d c = true) : c = d := by
  rcases h.isA_iff.mp hcd with rfl | hd
  · rfl
  · have hc := (h.isBaseOf_iff_isA.mp hd).2
    rw [hdc] at hc
    cases hc

/-- Of two classes above the same class, one is above the other. -/
theorem isA_comparable : m.isA c d = true → m.isA c e = true →
    m.isA d e = true ∨ m.isA e d = true := by
  intro hcd hce
  induction c using h.induction with
  | step c ih =>
      rcases h.isA_iff.mp hcd with rfl | hd
      · exact .inl hce
      · rcases h.isA_iff.mp hce with rfl | he
        · exact .inr hcd
        · obtain ⟨b, hb, hbd⟩ := h.isBaseOf_iff.mp hd
          obtain ⟨b', hb', hbe⟩ := h.isBaseOf_iff.mp he
          cases hb.symm.trans hb'
          exact ih b hb hbd hbe

/-! ### What is found in the chain -/

theorem findAttribute?_eq (c : ClassRef) (name : String) : m.findAttribute? c name =
    ((m.classInfo c).attributes.get? name).or
      ((m.classInfo c).base.bind fun b => m.findAttribute? b name) := by
  rw [findAttribute?, h.chain_eq_cons c, List.findSome?_cons]
  cases (m.classInfo c).attributes.get? name <;> cases (m.classInfo c).base <;> rfl

theorem findConstruction?_eq (c : ClassRef) : m.findConstruction? c =
    (m.classInfo c).construction.or ((m.classInfo c).base.bind m.findConstruction?) := by
  rw [findConstruction?, h.chain_eq_cons c, List.findSome?_cons]
  cases (m.classInfo c).construction <;> cases (m.classInfo c).base <;> rfl

/-- An attribute that is found is that of a class above, and no class in between has the name. -/
theorem findAttribute?_iff {name : String} {v : Value} :
    m.findAttribute? c name = some v ↔
      ∃ d, m.isA c d = true ∧ (m.classInfo d).attributes.get? name = some v ∧
        ∀ e, m.isA c e = true → m.isBaseOf d e = true →
          (m.classInfo e).attributes.get? name = none := by
  induction c using h.induction with
  | step c ih =>
      rw [h.findAttribute?_eq]
      cases hown : (m.classInfo c).attributes.get? name with
      | some w =>
          rw [Option.some_or]
          constructor
          · intro hw
            refine ⟨c, h.isA_refl c, hown.trans hw, fun e hce hbase => ?_⟩
            rw [(h.isBaseOf_iff_isA.mp hbase).2] at hce
            cases hce
          · rintro ⟨d, hcd, hd, hbetween⟩
            rcases h.isA_iff.mp hcd with rfl | hbase
            · exact hown.symm.trans hd
            · cases hown.symm.trans (hbetween c (h.isA_refl c) hbase)
      | none =>
          rw [Option.none_or, Option.bind_eq_some_iff]
          constructor
          · rintro ⟨b, hb, hv⟩
            obtain ⟨d, hbd, hd, hbetween⟩ := (ih b hb).mp hv
            refine ⟨d, h.isA_of_base hb hbd, hd, fun e hce hbase => ?_⟩
            rcases h.isA_iff.mp hce with rfl | he
            · exact hown
            · obtain ⟨b', hb', hbe⟩ := h.isBaseOf_iff.mp he
              cases hb.symm.trans hb'
              exact hbetween e hbe hbase
          · rintro ⟨d, hcd, hd, hbetween⟩
            rcases h.isA_iff.mp hcd with rfl | hbase
            · cases hown.symm.trans hd
            · obtain ⟨b, hb, hbd⟩ := h.isBaseOf_iff.mp hbase
              exact ⟨b, hb, (ih b hb).mpr
                ⟨d, hbd, hd, fun e hbe => hbetween e (h.isA_of_base hb hbe)⟩⟩

end Descends

/-- No attribute is found exactly if no class above has the name. -/
theorem findAttribute?_eq_none_iff (m : Memory) {name : String} :
    m.findAttribute? c name = none ↔
      ∀ d, m.isA c d = true → (m.classInfo d).attributes.get? name = none := by
  simp [findAttribute?, isA]

/-! ### What the requests keep -/

/-- A class is younger than its base.  One that has a base, or that a program makes, has no
construction of its own, and one that a program makes derives from such classes and from error
classes only. -/
structure Lineage (m : Memory) (c : ClassRef) : Prop where
  older : ∀ b, (m.classInfo c).base = some b → b.index < c.index
  inherits : (m.classInfo c).base.isSome = true ∨ (m.classInfo c).isBuiltin = false →
    (m.classInfo c).construction = none
  derives : (m.classInfo c).isBuiltin = false → ∀ b, (m.classInfo c).base = some b →
    (m.classInfo b).isBuiltin = true → m.isErrorClass b = true

theorem lineage_of_not_registered (h : ¬m.Registered c) : m.Lineage c := by
  constructor <;> rw [classInfo_of_not_registered h]
  · exact fun _ hb => by cases hb
  · exact fun _ => rfl
  · exact fun _ _ hb => by cases hb

theorem lineage_initial (c : ClassRef) : Memory.initial.Lineage c := by
  have hclasses : ∀ i < Memory.initial.classes.size, (Memory.initial.classes[i]?).all (fun d =>
      d.isBuiltin && d.base.all fun b => b.index < i && d.construction.isNone) = true := by decide
  by_cases hc : Memory.initial.Registered c
  · have hinfo : Memory.initial.classes[c.index]? = some (Memory.initial.classInfo c) := by
      rw [classInfo, Array.getElem?_eq_getElem hc]
      rfl
    have hd := hclasses c.index hc
    rw [hinfo, Option.all_some, Bool.and_eq_true] at hd
    obtain ⟨hbuiltin, hbase⟩ := hd
    refine ⟨fun b hb => ?_, ?_, fun hnot => ?_⟩
    · rw [hb] at hbase
      simp at hbase
      exact hbase.1
    · rintro (hsome | hnot)
      · obtain ⟨b, hb⟩ := Option.isSome_iff_exists.mp hsome
        rw [hb] at hbase
        simp at hbase
        exact hbase.2
      · rw [hbuiltin] at hnot
        cases hnot
    · rw [hbuiltin] at hnot
      cases hnot
  · exact lineage_of_not_registered hc

theorem Descends.chain_eq_of_keeps (hdescends : m.Descends) (h : m.Keeps n)
    (hc : m.Registered c) : n.chain c = m.chain c :=
  h.chainFrom_eq _ c fun _ hd => (hdescends.index_le_of_mem_chainFrom _ hd).trans_lt hc

theorem Descends.isErrorClass_eq (hdescends : m.Descends) (h : m.Keeps n) (hc : m.Registered c) :
    n.isErrorClass c = m.isErrorClass c := by
  rw [isErrorClass, isA, hdescends.chain_eq_of_keeps h hc, isErrorClass, isA]

theorem lineage_push (h : ∀ c, m.Lineage c) {r : ClassRequest}
    (hregistered : ∀ b ∈ r.base, m.Registered b)
    (hbase : ∀ b, r.base = some b → (m.classInfo b).isBuiltin = true → m.isErrorClass b = true)
    (c : ClassRef) : Lineage { m with classes := m.classes.push r.made } c := by
  have hkeeps := m.keeps_push r.made
  have hdescends : m.Descends := fun c => (h c).older
  have hnew := m.classInfo_push r.made c
  by_cases hc : c.index = m.classes.size
  · rw [if_pos hc] at hnew
    constructor <;> rw [hnew]
    · exact fun b hb => (hregistered b hb).trans_eq hc.symm
    · exact fun _ => rfl
    · intro _ b hb hbuiltin
      rw [hkeeps.classInfo_eq (hregistered b hb)] at hbuiltin
      rw [hdescends.isErrorClass_eq hkeeps (hregistered b hb)]
      exact hbase b hb hbuiltin
  · rw [if_neg hc] at hnew
    constructor <;> rw [hnew]
    · exact (h c).older
    · exact (h c).inherits
    · intro hmade b hb hbuiltin
      have hregistered : m.Registered b := by
        by_contra hnot
        rw [classInfo_of_not_registered fun hc' => hnot (((h c).older b hb).trans hc')] at hb
        cases hb
      rw [hkeeps.classInfo_eq hregistered] at hbuiltin
      rw [hdescends.isErrorClass_eq hkeeps hregistered]
      exact (h c).derives hmade b hb hbuiltin

namespace Registry

/-- The built-in classes stay as they are. -/
theorem keeps (h : m.Registry) : Memory.initial.Keeps m := by
  induction h with
  | fresh => exact .refl _
  | request r _ _ ih => exact ih.trans (keeps_request _ r)

theorem lineage (h : m.Registry) : ∀ c, m.Lineage c := by
  induction h with
  | fresh => exact lineage_initial
  | @request m r _ hb ih =>
      rcases m.answer_cases r with ⟨_, -, -, -, hrefused⟩ | ⟨hbase, hgranted⟩
      · rw [request_of_refused hrefused]
        exact ih
      · rw [Memory.request, hgranted]
        exact lineage_push ih hb hbase

variable (h : m.Registry)
include h

theorem descends : m.Descends := fun c => (h.lineage c).older

theorem eq_error_of_isA (hd : m.isA .error d = true) : d = .error := by
  have hroot : (m.classInfo .error).base = none := by
    rw [show ClassRef.error = ErrorKind.error.classRef from rfl, classInfo_kind h.keeps]
    rfl
  rcases h.descends.isA_iff.mp hd with rfl | hbase
  · rfl
  · obtain ⟨b, hb, -⟩ := h.descends.isBaseOf_iff.mp hbase
    cases hroot.symm.trans hb

theorem isErrorClass_of_isA (hc : m.isErrorClass c = true) (hd : m.isA c d = true) :
    m.isErrorClass d = true := by
  rcases h.descends.isA_comparable hd hc with hle | hle
  · exact hle
  · rw [h.eq_error_of_isA hle]
    exact h.descends.isA_refl .error

/-- Above a class that a program made lie such classes and error classes. -/
theorem made_or_isErrorClass (hc : (m.classInfo c).isBuiltin = false)
    (hd : m.isBaseOf d c = true) :
    (m.classInfo d).isBuiltin = false ∨ m.isErrorClass d = true := by
  induction c using h.descends.induction with
  | step c ih =>
      obtain ⟨b, hb, hbd⟩ := h.descends.isBaseOf_iff.mp hd
      cases hbuiltin : (m.classInfo b).isBuiltin with
      | true => exact .inr (h.isErrorClass_of_isA ((h.lineage c).derives hc b hb hbuiltin) hbd)
      | false =>
          rcases h.descends.isA_iff.mp hbd with rfl | hbase
          · exact .inl hbuiltin
          · exact ih b hb hbuiltin hbase

theorem findConstruction?_of_isErrorClass (hc : m.isErrorClass c = true) :
    m.findConstruction? c = some .error := by
  induction c using h.descends.induction with
  | step c ih =>
      rw [h.descends.findConstruction?_eq]
      rcases h.descends.isA_iff.mp hc with hroot | hbase
      · rw [← hroot, show ClassRef.error = ErrorKind.error.classRef from rfl,
          classInfo_kind h.keeps]
        rfl
      · obtain ⟨b, hb, hbc⟩ := h.descends.isBaseOf_iff.mp hbase
        rw [(h.lineage c).inherits (.inl (by rw [hb]; rfl)), hb]
        exact ih b hb hbc

/-- A class of the program that is no error class has no construction. -/
theorem findConstruction?_of_made (hmade : (m.classInfo c).isBuiltin = false)
    (hc : m.isErrorClass c = false) : m.findConstruction? c = none := by
  induction c using h.descends.induction with
  | step c ih =>
      rw [h.descends.findConstruction?_eq, (h.lineage c).inherits (.inr hmade), Option.none_or]
      cases hb : (m.classInfo c).base with
      | none => rfl
      | some b =>
          have hberror : m.isErrorClass b = false := by
            rw [← Bool.not_eq_true] at hc ⊢
            exact fun herror => hc (h.descends.isA_of_base hb herror)
          refine ih b hb ?_ hberror
          rw [← Bool.not_eq_true] at hberror ⊢
          exact fun hbuiltin => hberror ((h.lineage c).derives hmade b hb hbuiltin)

end Registry

/-! ### The laws of a registry -/

/-- The laws of the registered classes. -/
structure Ordered (m : Memory) : Prop where
  registered : ∀ c d, m.Registered c → m.isA c d = true → m.Registered d
  reflexive : ∀ c, m.isA c c = true
  transitive : ∀ c d e, m.isA c d = true → m.isA d e = true → m.isA c e = true
  antisymmetric : ∀ c d, m.isA c d = true → m.isA d c = true → c = d
  /-- What lies above one class is a chain. -/
  forest : ∀ c d e, m.isA c d = true → m.isA c e = true → m.isA d e = true ∨ m.isA e d = true
  strict : ∀ c d, m.isBaseOf d c = true ↔ m.isA c d = true ∧ m.isA d c = false
  caught : ∀ raised handler, m.shouldCatch raised handler = m.isA raised handler
  above : ∀ c d, (m.classInfo c).isBuiltin = false → m.isBaseOf d c = true →
    (m.classInfo d).isBuiltin = false ∨ m.isErrorClass d = true
  constructed : ∀ c, (m.classInfo c).isBuiltin = false →
    m.findConstruction? c = if m.isErrorClass c then some .error else none
  /-- The attribute of the nearest class. -/
  found : ∀ c name v, m.findAttribute? c name = some v ↔
    ∃ d, m.isA c d = true ∧ (m.classInfo d).attributes.get? name = some v ∧
      ∀ e, m.isA c e = true → m.isBaseOf d e = true →
        (m.classInfo e).attributes.get? name = none
  notFound : ∀ c name, m.findAttribute? c name = none ↔
    ∀ d, m.isA c d = true → (m.classInfo d).attributes.get? name = none

theorem Registry.ordered (h : m.Registry) : m.Ordered where
  registered _ _ hc hd := (h.descends.index_le_of_isA hd).trans_lt hc
  reflexive := h.descends.isA_refl
  transitive _ _ _ := h.descends.isA_trans
  antisymmetric _ _ := h.descends.isA_antisymm
  forest _ _ _ := h.descends.isA_comparable
  strict _ _ := h.descends.isBaseOf_iff_isA
  caught := m.shouldCatch_eq_isA
  above _ _ := h.made_or_isErrorClass
  constructed c hmade := by
    cases hc : m.isErrorClass c with
    | true => exact h.findConstruction?_of_isErrorClass hc
    | false => exact h.findConstruction?_of_made hmade hc
  found _ _ _ := h.descends.findAttribute?_iff
  notFound _ _ := m.findAttribute?_eq_none_iff

/-- **The registered classes form a forest**, whatever was asked for before: `isA` is its order, and
the other questions about classes follow it.  A request is refused exactly if its base is built in
and no error class, and then nothing changes; any request leaves the classes that are there, and
what lies above them, as they are. -/
theorem registered_classes_form_a_forest (h : m.Registry) :
    m.Ordered ∧ ∀ r : ClassRequest,
      ((∃ cause, m.answer r = .error cause) ↔ ∃ b, r.base = some b ∧
        (m.classInfo b).isBuiltin = true ∧ m.isErrorClass b = false) ∧
      (∀ cause, m.answer r = .error cause → m.request r = m) ∧
      ∀ c, m.Registered c → (m.request r).classInfo c = m.classInfo c ∧
        (m.request r).chain c = m.chain c := by
  refine ⟨h.ordered, fun r => ⟨m.refused_iff r, fun _ => request_of_refused, fun c hc => ?_⟩⟩
  exact ⟨(m.keeps_request r).classInfo_eq hc, h.descends.chain_eq_of_keeps (m.keeps_request r) hc⟩

/-- A class below an error class and one below it, after a class below `int` was refused. -/
theorem registered_classes_form_a_forest_below_an_error :
    let timeout : ClassRequest := { name := "Timeout", base := some .error }
    let count : ClassRequest := { name := "Count", base := some .int }
    let m := ((Memory.initial.request timeout).request count).request
      { name := "ReadTimeout", base := some ⟨21⟩ }
    m.Ordered ∧ m.isA ⟨22⟩ ⟨21⟩ = true ∧ m.findConstruction? ⟨22⟩ = some .error :=
  ⟨(registered_classes_form_a_forest (.request _ (.request _ (.request _ .fresh
      fun b hb => by cases hb; decide) fun b hb => by cases hb; decide)
      fun b hb => by cases hb; decide)).1, by decide, by decide⟩

end Classlet.Memory
