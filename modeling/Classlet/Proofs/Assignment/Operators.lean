import Classlet.Proofs.Assignment.Way
import Classlet.Proofs.Call.Body
import Classlet.Proofs.Operation.Negation

/-! # Operators that give access to a field

The operators `[]` and `[]=` of a class are user code.  Here is a pair of them that keeps the laws
of a way: `[]` hands out a field for every index, as a copy if it is a struct value, and `[]=`
stores what is assigned in that field.  What `[]` has handed out is stored back with `[]=` when it
is changed, so a way through such an instance into a struct value is steady
(`AtAccessor.lawfulWay`). -/

namespace Classlet

open Eval

variable {e : Engine} {s t u : State} {f : Function}

/-! ### A function that hands out a field -/

/-- The field that a function of an instance and an index hands out, whatever the index is.  It puts
the value of the field into a list first, so that a struct value is copied. -/
def Function.handsOut? (f : Function) : Option String :=
  match f.params, f.returns, f.decl.body with
  | [⟨"self", .any, false⟩, ⟨"index", .any, false⟩], [.any],
      [.mk _ (.returnValues [.index (.list [.attr (.var "self") field]) (.literal (.int k))])] =>
    if k = 0 then some field else none
  | _, _, _ => none

theorem Function.handsOut?_spec {field : String} (h : f.handsOut? = some field) :
    f.TakesAny ["self", "index"] ∧ ∃ line, f.decl.body = [.mk line (.returnValues
      [.index (.list [.attr (.var "self") field]) (.literal (.int 0))])] := by
  unfold handsOut? at h
  split at h
  · rename_i hparams hreturns hbody
    split at h
    · rename_i hk
      cases hk
      cases h
      exact ⟨⟨hparams, hreturns, by decide, by decide⟩, _, hbody⟩
    · cases h
  · cases h

/-- The field that a function of an instance, an index and a value stores the value in. -/
def Function.takesIn? (f : Function) : Option String :=
  match f.params, f.returns, f.decl.body with
  | [⟨"self", .any, false⟩, ⟨"index", .any, false⟩, ⟨"value", .any, false⟩], [.any],
      [.mk _ (.assign [.attr (.var "self") field] [.var "value"])] => some field
  | _, _, _ => none

theorem Function.takesIn?_spec {field : String} (h : f.takesIn? = some field) :
    f.TakesAny ["self", "index", "value"] ∧ ∃ line, f.decl.body =
      [.mk line (.assign [.attr (.var "self") field] [.var "value"])] := by
  unfold takesIn? at h
  split at h
  · rename_i hparams hreturns hbody
    cases h
    exact ⟨⟨hparams, hreturns, by decide, by decide⟩, _, hbody⟩
  · cases h

theorem Memory.element?_newList (m : Memory) (v : Value) :
    (m.newList #[v]).2.element? (m.newList #[v]).1 (.int 0) = some v := by
  have helements : (m.newList #[v]).2.elements (m.newList #[v]).1 = #[v] := by
    simp [newList, elements]
  unfold element?
  rw [helements]
  rfl

theorem execStatements_single {line : UInt32} {kind : StatementKind} {o : Completion}
    (h : execKind e kind s = (.ok o, t)) : e.execStatements [.mk line kind] s = (.ok o, t) := by
  have hstatement : e.execStatement (.mk line kind) s = (.ok o, t) := by
    rw [Engine.execStatement]
    unfold recording
    rw [h]
  rw [Engine.execStatements]
  dsimp only
  rw [hstatement]
  cases o <;> rfl

section bodies
variable {i : InstanceRef} {field : String} {v w : Value}

theorem execStatements_handsOut (e : Engine) (line : UInt32)
    (hself : s.toStore.lookup s.activation.context "self" = .ok (.instance i))
    (hv : s.memory.field? i field = some v) :
    ∃ n w, e.execStatements [.mk line (.returnValues
        [.index (.list [.attr (.var "self") field]) (.literal (.int 0))])] s =
      (.ok (.returned w), { s with memory := n }) ∧ s.memory.Adds n ∧ s.memory.Alters n ∧
        s.memory.Copied v n w := by
  have hattr : e.evalExpr (.attr (.var "self") field) s = (.ok v, s) := by
    rw [Engine.evalExpr, bind_apply, evalExpr_var e hself]
    dsimp only
    rw [getAttribute_instance, hv]
  let n := (s.memory.copyForBinding v).2
  have hlist : e.evalExpr (.list [.attr (.var "self") field]) s =
      newListOf [(s.memory.copyForBinding v).1] { s with memory := n } := by
    rw [Engine.evalExpr, evalElements, evalElements, bind_apply, bind_apply, hattr]
    rfl
  have hmore : n.Adds (n.newList #[(s.memory.copyForBinding v).1]).2 :=
    ⟨List.prefix_rfl, List.prefix_rfl⟩
  refine ⟨_, _, ?_, (s.memory.adds_copyForBinding v).trans hmore,
    (s.memory.alters_copyForBinding v).trans ⟨rfl, rfl, rfl, rfl⟩,
    (s.memory.copied_copyForBinding v).mono (.refl _) hmore⟩
  have hindex : e.evalExpr (.index (.list [.attr (.var "self") field]) (.literal (.int 0))) s =
      (.ok (s.memory.copyForBinding v).1,
        { s with memory := (n.newList #[(s.memory.copyForBinding v).1]).2 }) := by
    rw [Engine.evalExpr, bind_apply, hlist]
    exact (indexOperation_list e _).mpr ⟨n.element?_newList _, rfl⟩
  refine execStatements_single ?_
  rw [execKind, bind_apply, evalAll, bind_apply, hindex]
  rfl

/-- The body of a function that stores a value in a field. -/
theorem execStatements_takesIn (e : Engine) (line : UInt32)
    (hself : s.toStore.lookup s.activation.context "self" = .ok (.instance i))
    (hvalue : s.toStore.lookup s.activation.context "value" = .ok v) :
    e.execStatements [.mk line (.assign [.attr (.var "self") field] [.var "value"])] s =
      (.ok .normal, { s with memory := s.memory.bindField i field v }) := by
  have hassign : assignTo e (.attr (.var "self") field) v s =
      (.ok (), { s with memory := s.memory.bindField i field v }) := by
    show (e.evalExpr (.var "self") >>= fun o => setAttribute o field v) s = _
    rw [bind_apply, evalExpr_var e hself]
    rfl
  have hall : evalAll e [.var "value"] s = (.ok [v], s) := by
    rw [evalAll, bind_apply, evalExpr_var e hvalue]
    rfl
  have hassignment : assignment e [.attr (.var "self") field] [.var "value"] s =
      (.ok (), { s with memory := s.memory.bindField i field v }) := by
    rw [assignment, bind_apply, hall]
    show (assignAll e [_] [v]) s = _
    rw [assignAll, bind_apply, hassign]
    rfl
  refine execStatements_single ?_
  rw [execKind, completing, bind_apply, hassignment]
  rfl

end bodies

/-! ### Instances that give access to a field -/

section accessors
variable {settings : Settings} {loader : Loader} {fuel : Nat} {i d : InstanceRef}
  {field name attr : String} {index v w : Value} {x y : Content} {m n : Memory}

theorem settings_engine : ∀ fuel : Nat, (engine settings loader fuel).settings = settings
  | 0 => rfl
  | _ + 1 => rfl

/-- The function that the class of an instance defines under a key. -/
def Memory.definedFor? (m : Memory) (i : InstanceRef) (key : String) : Option Function :=
  match m.findAttribute? i.ofClass key with
  | some (.function r) => m.function? r
  | _ => none

theorem Memory.definedFor?_eq_some {key : String} (h : m.definedFor? i key = some f) :
    ∃ r, m.findAttribute? i.ofClass key = some (.function r) ∧ m.function? r = some f := by
  unfold definedFor? at h
  split at h
  · rename_i r hr
    exact ⟨r, hr, h⟩
  · cases h

/-- The operators `[]` and `[]=` of an instance give access to a field. -/
structure Memory.Accessor (m : Memory) (i : InstanceRef) (field : String) : Prop where
  hasClass : m.HasClass (.instance i)
  reader : (m.definedFor? i indexKey).bind Function.handsOut? = some field
  writer : (m.definedFor? i setIndexKey).bind Function.takesIn? = some field

theorem Memory.Keeps.definedFor? (h : m.Keeps n) (hclass : m.HasClass (.instance i)) {key : String}
    (hf : m.definedFor? i key = some f) : n.definedFor? i key = some f := by
  obtain ⟨r, hfind, hr⟩ := definedFor?_eq_some hf
  unfold Memory.definedFor?
  rw [h.findAttribute?_eq hclass, hfind]
  exact h.function?_eq hr

theorem Memory.Keeps.accessor (h : m.Keeps n) (hm : m.Accessor i field) : n.Accessor i field := by
  have hchain : n.chain i.ofClass = m.chain i.ofClass := h.chainFrom_eq _ _ hm.hasClass
  obtain ⟨f, hf, hfield⟩ := Option.bind_eq_some_iff.mp hm.reader
  obtain ⟨g, hg, hfield'⟩ := Option.bind_eq_some_iff.mp hm.writer
  refine ⟨fun c hc => (hm.hasClass c (hchain ▸ hc)).trans_le h.classes.length_le, ?_, ?_⟩
  · rwa [h.definedFor? hm.hasClass hf]
  · rwa [h.definedFor? hm.hasClass hg]

theorem Memory.Adds.field? (h : m.Adds n) (hi : i.index < m.instances.size) :
    n.field? i field = m.field? i field := by
  unfold Memory.field? fields
  exact congrArg (Bindings.get? · field) (h.fieldsAt hi)

/-- The functions of the class of an instance are never let go of. -/
def State.SparesClassOf (s : State) (i : InstanceRef) : Prop :=
  ∀ key r, s.memory.findAttribute? i.ofClass key = some (.function r) → s.Spares r

theorem indexOperation_accessor (loader : Loader) (fuel : Nat) (index : Value)
    (hs : s.Sound) (hi : i.index < s.memory.instances.size)
    (haccess : s.memory.Accessor i field) (hspares : s.SparesClassOf i)
    (hdepth : s.depth < settings.maxCallDepth)
    (hv : s.memory.field? i field = some v) :
    ∃ w u, indexOperation (engine settings loader (fuel + 1)) (.instance i) index s = (.ok w, u) ∧
      s.memory.Adds u.memory ∧ s.memory.Alters u.memory ∧ s.memory.Copied v u.memory w := by
  obtain ⟨f, hdefined, hf⟩ := Option.bind_eq_some_iff.mp haccess.reader
  obtain ⟨r, hfind, hr⟩ := Memory.definedFor?_eq_some hdefined
  obtain ⟨htakes, line, hbody⟩ := Function.handsOut?_spec hf
  have hcall : indexOperation (engine settings loader (fuel + 1)) (.instance i) index s =
      callReference (engine settings loader fuel) r true [.instance i, index] [] s := by
    unfold indexOperation
    dsimp only
    rw [bind_apply, classAttribute?, readMemory]
    dsimp only
    rw [hfind]
    rfl
  obtain ⟨t, ht, hrun⟩ := callReference_of_body [.instance i, index]
    (rules.engine settings loader fuel) hs hr (hspares _ r hfind) htakes rfl
    (by rwa [settings_engine])
  obtain ⟨_, hself, rfl⟩ := ht.bound 0 "self" (.instance i) rfl rfl
  obtain ⟨n, w, hstatements, hadds, halters, hcopied⟩ := execStatements_handsOut
    (engine settings loader fuel) line hself ((ht.adds.field? hi).trans hv)
  obtain ⟨u, hcall', rfl⟩ := hrun _ n (hbody ▸ hstatements)
  exact ⟨w, u, hcall.trans hcall', ht.adds.trans hadds, ht.alters.trans halters,
    hcopied.mono ht.adds (.refl _)⟩

theorem setIndexOperation_accessor (loader : Loader) (fuel : Nat) (index : Value)
    (hs : s.Sound) (haccess : s.memory.Accessor i field) (hspares : s.SparesClassOf i)
    (hdepth : s.depth < settings.maxCallDepth) :
    ∃ k w u, setIndexOperation (engine settings loader (fuel + 1)) (.instance i) index v s =
        (.ok (), u) ∧ s.memory.Adds k ∧ s.memory.Alters k ∧ (s.memory.Nests → k.Nests) ∧
          s.memory.Copied v k w ∧ u.memory = k.bindField i field w := by
  obtain ⟨f, hdefined, hf⟩ := Option.bind_eq_some_iff.mp haccess.writer
  obtain ⟨r, hfind, hr⟩ := Memory.definedFor?_eq_some hdefined
  obtain ⟨htakes, line, hbody⟩ := Function.takesIn?_spec hf
  obtain ⟨t, ht, hrun⟩ := callReference_of_body [.instance i, index, v]
    (rules.engine settings loader fuel) hs hr (hspares _ r hfind) htakes rfl
    (by rwa [settings_engine])
  obtain ⟨_, hself, rfl⟩ := ht.bound 0 "self" (.instance i) rfl rfl
  obtain ⟨w, hvalue, hcopied⟩ := ht.bound 2 "value" v rfl rfl
  obtain ⟨u, hcall, hu⟩ := hrun _ _ (hbody ▸ execStatements_takesIn
    (engine settings loader fuel) line hself hvalue)
  refine ⟨t.memory, w, u, ?_, ht.adds, ht.alters, ht.nests, hcopied, hu⟩
  unfold setIndexOperation
  dsimp only
  rw [bind_apply, classAttribute?, readMemory]
  dsimp only
  rw [hfind]
  dsimp only
  rw [bind_apply, show (engine settings loader (fuel + 1)).callMethod (.function r) (.instance i)
    [index, v] s = _ from hcall]
  rfl

/-! ### The laws of a way -/

/-- What is read from a field is held there as long as the fields and the classes stay the same. -/
theorem Passage.Holds.field_kept (hhold : Passage.Holds e s ⟨.instance d, .attr attr, v⟩ x)
    (hm : s.memory.Nests) (hin : s.memory.Has (.instance d))
    (hclasses : t.memory.classes = s.memory.classes)
    (hfields : t.memory.fields d = s.memory.fields d)
    (hshows : ∀ w, s.memory.attribute? d attr = some w →
      ∀ x, s.memory.Shows w x → t.memory.Shows w x) :
    Passage.Holds e t ⟨.instance d, .attr attr, v⟩ x := by
  obtain ⟨y, hy⟩ := hm.exists_shows hin.knows
  have hplain : Passage.Plain ⟨.instance d, .attr attr, v⟩ := .field d attr v
  obtain ⟨w, hw, hx⟩ := hplain.read?_of_holds hhold hy
  exact hplain.holds ((Memory.attribute?_congr hfields hclasses attr).trans hw) (hshows w hw x hx)

/-- A field of an instance holds a struct value of a class. -/
def Memory.HoldsStruct (m : Memory) (i : InstanceRef) (field : String) (c : ClassRef) : Prop :=
  ∃ j, m.field? i field = some (.instance j) ∧ j.isStruct = true ∧ j.ofClass = c

/-- A state in which a variable holds an instance that gives access to a field, and a struct value
lies in the field.  The class of the struct value has no struct value under the name `attr`. -/
structure AtAccessor (settings : Settings) (name : String) (i : InstanceRef) (field : String)
    (c : ClassRef) (attr : String) (s : State) : Prop where
  access : s.memory.Accessor i field
  spared : s.SparesClassOf i
  shallow : s.depth < settings.maxCallDepth
  free : s.memory.Free i.index
  held : s.memory.HoldsStruct i field c
  bound : (s.scopes.context s.activation.context).scopes.findSome?
    (fun r => (s.scopes.frame r).values.get? name) = some (.instance i)
  default : ∀ w, s.memory.findAttribute? c attr = some w → w.isStruct = false

namespace AtAccessor

variable {c : ClassRef}

theorem lookup (h : AtAccessor settings name i field c attr s) :
    s.toStore.lookup s.activation.context name = .ok (.instance i) := by
  unfold Store.lookup Arena.get? Arena.getFrom?
  dsimp only
  rw [h.bound]

theorem keeps (h : AtAccessor settings name i field c attr s) (hs : s.Sound)
    (ht : Settles [] s ((.ok () : Outcome Unit), t))
    (hclasses : t.memory.classes = s.memory.classes) (hfree : t.memory.Free i.index)
    (hheld : t.memory.HoldsStruct i field c) :
    AtAccessor settings name i field c attr t where
  access := ht.memory.accessor h.access
  spared key r hr := by
    rw [Memory.findAttribute?_congr hclasses] at hr
    exact ht.spares r (h.spared key r hr)
  shallow := (show t.depth = s.depth from ht.depth) ▸ h.shallow
  free := hfree
  held := hheld
  bound := by
    have hsame := ht.disturbs_nothing
    have hmap := List.map_congr_left fun r hr =>
      congrArg (Bindings.get? · name) (hsame.values _ (.opened hs.here) r hr)
    have hfound := congrArg (List.findSome? id) hmap
    rw [List.findSome?_map, List.findSome?_map] at hfound
    rw [hsame.activation, (hsame.context _ (.opened hs.here)).scopes]
    exact hfound.trans h.bound
  default := by
    rw [Memory.findAttribute?_congr hclasses]
    exact h.default

/-- Reading with the operator `[]` disturbs nothing, and gives a copy of what lies in the field. -/
theorem read {cs : List Value} (h : AtAccessor settings name i field c attr s) (hmet : Met cs s)
    (hread : indexOperation (engine settings loader (fuel + 1)) (.instance i) index s =
      (.ok w, t)) :
    AtAccessor settings name i field c attr t ∧ s.memory.Adds t.memory ∧ s.memory.Alters t.memory ∧
      ∃ l, w = .instance l ∧ l.ofClass = c ∧ l.isStruct = true ∧
        s.memory.instances.size ≤ l.index ∧ l.index < t.memory.instances.size := by
  have he := engine_isPaced settings loader (fuel + 1)
  obtain ⟨j, hj, hstruct, rfl⟩ := h.held
  obtain ⟨w', t', hread', hadds, halters, hcopied⟩ := indexOperation_accessor loader fuel index
    hmet.fit.sound h.free.lt h.access h.spared h.shallow hj
  rw [hread] at hread'
  cases hread'
  have hops := paced_rules.closed.indexOperation he (.instance i) index
  have hsettles := hops.1 s hmet.fit.sound
  rw [hread] at hsettles
  refine ⟨h.keeps hmet.fit.sound (hsettles.outcome (.ok ())) halters.classes
    (hmet.free hops.2 hread h.free) ?_, hadds, halters, hcopied.new j rfl hstruct⟩
  exact ⟨j, (hadds.field? h.free.lt).trans hj, hstruct, rfl⟩

/-- Storing with the operator `[]=` binds the field, and changes no other instance. -/
theorem store {cs : List Value} (h : AtAccessor settings name i field d.ofClass attr s)
    (hmet : Met cs s) (hd : d.isStruct = true)
    (hstore : setIndexOperation (engine settings loader (fuel + 1)) (.instance i) index
      (.instance d) s = (.ok (), t)) :
    AtAccessor settings name i field d.ofClass attr t ∧ t.memory.classes = s.memory.classes ∧
      (∀ x, s.memory.Shows (.instance d) x →
        ∃ w, t.memory.field? i field = some w ∧ t.memory.Shows w x) ∧
      (∀ j < s.memory.instances.size, j ≠ i.index → t.memory.fieldsAt j = s.memory.fieldsAt j) ∧
      ∀ v x, v.struct? ≠ some i.index → s.memory.Shows v x → t.memory.Shows v x := by
  have he := engine_isPaced settings loader (fuel + 1)
  obtain ⟨k, w, t', hstore', hadds, halters, hnests, hcopied, hmemory⟩ :=
    setIndexOperation_accessor loader fuel index (v := .instance d) hmet.fit.sound h.access
      h.spared h.shallow
  rw [hstore] at hstore'
  cases hstore'
  have hk := hnests hmet.nests
  have hi : i.index < k.instances.size := h.free.lt.trans_le hadds.instances.length_le
  have hops := paced_rules.closed.setIndexOperation he (.instance i) index (.instance d)
  have hsettles := hops.1 s hmet.fit.sound
  rw [hstore] at hsettles
  have hfree : t.memory.Free i.index := hmet.free hops.2 hstore h.free
  have hclasses : t.memory.classes = s.memory.classes := by
    rw [hmemory, (k.alters_bindField i field w).classes, halters.classes]
  have hfield : t.memory.field? i field = some (k.copyForBinding w).1 := by
    unfold Memory.field?
    rw [hmemory, Memory.fields_bindField hk hi, Bindings.get?_insert_self]
  have hother : ∀ j < k.instances.size, j ≠ i.index → t.memory.fieldsAt j = k.fieldsAt j :=
    fun j hj hne => by rw [hmemory, Memory.fieldsAt_bindField hk hj hne]
  have hsize := (Memory.evolves_bindField hk i field w).size_le
  have hheld : t.memory.HoldsStruct i field d.ofClass := by
    obtain ⟨j, rfl, hclass, hj, -⟩ := hcopied.new d rfl hd
    obtain ⟨l, hl, hclass', hl', -⟩ := (k.copied_copyForBinding (.instance j)).new j rfl hj
    exact ⟨l, hfield.trans (congrArg some hl), hl', hclass'.trans hclass⟩
  refine ⟨h.keeps hmet.fit.sound hsettles hclasses hfree hheld, hclasses, fun x hx => ?_,
    fun j hj hne => ?_, fun v x hv hx => ?_⟩
  · obtain ⟨w, hw, hfields⟩ := Memory.shows_bindField hk hi (hcopied.shows x hx) field
    refine ⟨w, ?_, hmemory ▸ hw⟩
    unfold Memory.field?
    rw [hmemory, hfields, Bindings.get?_insert_self]
  · exact (hother j (hj.trans_le hadds.instances.length_le) hne).trans (hadds.fieldsAt hj)
  · -- no field that is looked at holds the instance that is changed
    refine (hadds.shows hx).transfer (S := (· ≠ i.index)) (fun j hne hj => ?_) fun l hl hi =>
      hv (hi ▸ hl)
    have hsame := hother j hj hne
    refine ⟨?_, hsame, fun l hl hi => hfree.unheld j ?_⟩
    · rw [hmemory]
      exact hj.trans_le hsize
    · rw [hsame, ← hi]
      exact hl

variable {v : Value}

/-- The passage through the operators is lawful before a field of the struct value behind it. -/
theorem lawful {k : Literal} (hi : i.isStruct = false) (hd : d.isStruct = true)
    (hne : d.index ≠ i.index) :
    Passage.Lawful (engine settings loader (fuel + 1))
      (AtAccessor settings name i field d.ofClass attr) ⟨.instance i, .index k, .instance d⟩
      [⟨.instance d, .attr attr, v⟩] := by
  have hback : storedBack [⟨.instance i, .index k, .instance d⟩, ⟨.instance d, .attr attr, v⟩] =
      true := by
    simp [storedBack, PlaceStep.isIndex, Value.isStruct, hd]
  have hplain : ¬ Passage.Plain ⟨.instance i, .index k, .instance d⟩ := by rintro ⟨⟩
  have hself : ∀ {s : State} {c : Value} {y : Content}, s.memory.Shows (.instance i) y →
      s.memory.Shows c y → c = .instance i := by
    intro s c y hy hc
    cases hy with
    | plain _ =>
      cases hc
      rfl
    | struct hstruct _ _ => exact absurd hstruct (ne_true_of_eq_false hi)
  refine ⟨fun s t hP hmet hstore => (hP.store hmet hd hstore).1, fun _ => ⟨?stored, ?read, ?found,
    fun h => absurd hback (ne_true_of_eq_false h), fun h => absurd hback (ne_true_of_eq_false h)⟩,
    fun h => absurd h hplain, fun _ b hb => ?apart,
    fun h => absurd hback (ne_true_of_eq_false h)⟩
  case stored =>
    intro s t x hP hmet hx hstore c y hy hc
    obtain ⟨ht, -, hfield, -⟩ := hP.store hmet hd hstore
    obtain ⟨w, hw, hwx⟩ := hfield x hx
    obtain rfl := hself hy hc
    have hmet' := hmet.after (PlaceStep.paced_store (engine_isPaced settings loader (fuel + 1))
      (.index k) _ _) hstore
    obtain ⟨w', u, hread, -, -, hcopied⟩ := indexOperation_accessor loader fuel k.value
      hmet'.fit.sound ht.free.lt ht.access ht.spared ht.shallow hw
    exact ⟨w', u, hread, hcopied.shows x hwx, fun h => absurd h hplain⟩
  case read =>
    intro s t c x w hP hmet hx hc hread
    obtain rfl := hself hx hc
    obtain ⟨ht, hadds, halters, -⟩ := hP.read hmet hread
    refine ⟨ht, fun v y hv => hadds.shows hv, fun b hb hin y hhold => ?_⟩
    obtain rfl := List.mem_singleton.mp hb
    exact hhold.field_kept hmet.nests hin halters.classes (hadds.fieldsAt (hin d rfl))
      (fun w _ x hx => hadds.shows hx)
  case found =>
    intro s t hP hmet hread
    obtain ⟨-, -, -, l, hl, -, -, -, hlt⟩ := hP.read hmet hread
    rintro d' hd'
    cases hl.symm.trans hd'
    exact hlt
  case apart =>
    obtain rfl := List.mem_singleton.mp hb
    refine .inr fun s t hP hmet hstore => ?_
    have hin := hmet.has (.instance d) (by simp)
    obtain ⟨-, hclasses, -, hother, hshows⟩ := hP.store hmet hd hstore
    refine ⟨fun y hy => hshows _ y (fun h => ?_) hy, fun y hhold => ?_⟩
    · rw [Value.struct?, if_pos hd] at h
      exact hne (Option.some.inj h)
    · refine hhold.field_kept hmet.nests hin hclasses (hother d.index (hin d rfl) hne)
        fun w hw x hx => hshows w x (fun hwi => ?_) hx
      rcases Option.or_eq_some_iff.mp hw with hw | ⟨-, hw⟩
      · have hheld : ((s.memory.fieldsAt d.index).get? attr).bind Value.struct? = some i.index :=
          (congrArg (Option.bind · Value.struct?) hw).trans hwi
        exact hP.free.unheld d.index (Bindings.mem_structs_of_get? hheld)
      · have hdefault := hP.default w (Option.filter_eq_some_iff.mp hw).1
        rw [Value.struct?_eq_none hdefault] at hwi
        cases hwi

/-- The laws of the way into a struct value behind the operators. -/
theorem lawfulWay {k : Literal} (hi : i.isStruct = false) (hd : d.isStruct = true)
    (hne : d.index ≠ i.index) :
    LawfulWay (engine settings loader (fuel + 1))
      (AtAccessor settings name i field d.ofClass attr) [⟨.instance i, .index k, .instance d⟩,
      ⟨.instance d, .attr attr, v⟩] := by
  refine ⟨lawful hi hd hne, ⟨fun s t hP hmet hstore => ?_, fun h => absurd (.field d attr v) h,
    fun _ h => absurd rfl h, fun _ => List.forall_mem_nil _,
    fun _ => List.forall_mem_nil _⟩, trivial⟩
  obtain rfl : t = { s with memory := s.memory.bindField d attr v } :=
    (congrArg Prod.snd hstore).symm
  have halters := s.memory.alters_bindField d attr v
  obtain ⟨j, hj, hstruct, hclass⟩ := hP.held
  refine ⟨halters.keeps.accessor hP.access, fun key r hr => ?_, hP.shallow,
    (Memory.evolves_bindField hmet.nests d attr v).free hP.free, ⟨j, ?_, hstruct, hclass⟩,
    hP.bound, ?_⟩
  · rw [Memory.findAttribute?_congr halters.classes] at hr
    exact hP.spared key r hr
  · exact (congrArg (Bindings.get? · field)
      (Memory.fieldsAt_bindField hmet.nests hP.free.lt hne.symm attr v)).trans hj
  · intro w hw
    rw [Memory.findAttribute?_congr halters.classes] at hw
    exact hP.default w hw

end AtAccessor

end accessors

end Classlet
