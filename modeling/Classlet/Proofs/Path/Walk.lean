import Classlet.Proofs.Path.Steps

/-! # Paths as walks, and their normal form

A path is a walk over directories: the names from the root down to a directory are a stack, a name
is pushed on it, `..` pops it unless it is empty, and an absolute path empties it first
(`Path.lead`).  Where a walk leads from every directory is told by a `Destination`: how far up it
goes, and which names it enters then.  Every destination is reached in exactly one normal way, and
that is what `Path.normalize` writes down (`normalize_is_normal_form`).

The fold behind `Path.normalize` keeps the steps of the destination so far
(`Destination.fold_steps`), and two destinations that lead to the same place from everywhere are
equal (`Destination.eq_of_reach`). -/

namespace Classlet.Path

/-! ### Walks -/

/-- Enter what is written between two slashes.  A directory is the list of its names, the innermost
first. -/
def enter (dir : List String) (part : List Char) : List String :=
  if part = [] ∨ part = ['.'] then dir
  else if part = ['.', '.'] then dir.tail
  else String.ofList part :: dir

/-- Where a path leads from a directory. -/
def lead (p : Path) (dir : List String) : List String :=
  (splitSlashes p.text.toList).foldl enter (if p.isAbsolute then [] else dir)

/-- Take one step from a directory. -/
def advance (dir : List String) : Component → List String
  | .root => []
  | .current => dir
  | .up => dir.tail
  | .name s => s :: dir

theorem enter_skipped {part : List Char} (h : isSkipped part = true) (dir : List String) :
    enter dir part = dir :=
  if_pos (by simpa [isSkipped] using h)

theorem enter_of_not_skipped {part : List Char} (h : isSkipped part = false) (dir : List String) :
    enter dir part = advance dir (.ofPart part) := by
  rw [enter, if_neg (by simpa [isSkipped] using h), Component.ofPart]
  split <;> rfl

theorem foldl_enter (parts : List (List Char)) (dir : List String) :
    parts.foldl enter dir = (stepsOf parts).foldl advance dir := by
  induction parts generalizing dir with
  | nil => rfl
  | cons part more ih =>
    rw [List.foldl_cons, ih]
    cases hskip : isSkipped part with
    | true => rw [enter_skipped hskip, stepsOf_skipped hskip]
    | false => rw [enter_of_not_skipped hskip, stepsOf_cons hskip, List.foldl_cons]

/-- Only a slash in front makes a difference to where a walk begins. -/
theorem foldl_opening (cs : List Char) (dir : List String) :
    (opening (splitSlashes cs)).foldl advance dir =
      if cs.head? == some '/' then [] else dir := by
  cases cs with
  | nil => rfl
  | cons c cs =>
    by_cases hc : c = '/'
    · rw [hc, splitSlashes_slash, opening, if_pos ⟨rfl, splitSlashes_ne_nil cs⟩]
      rfl
    · obtain ⟨part, more, -, hcons⟩ := splitSlashes_cons hc cs
      have hslash : ((c :: cs).head? == some '/') = false := by simpa using hc
      rw [hcons, opening, if_neg fun h => List.cons_ne_nil _ _ h.1, hslash]
      split <;> rfl

theorem lead_eq (p : Path) (dir : List String) : p.lead dir = p.components.foldl advance dir := by
  rw [components_eq, List.foldl_append, foldl_opening, lead, foldl_enter]
  rfl

/-! ### Destinations -/

/-- Where a walk leads: to the root or a number of levels up, and from there into names, the
innermost first. -/
structure Destination where
  up : Option Nat
  names : List String

namespace Destination

variable {d e : Destination}

/-- The directory that is reached from another one. -/
def reach (d : Destination) (dir : List String) : List String :=
  d.names ++ match d.up with
    | none => []
    | some n => dir.drop n

/-- The steps that lead there, the last one first. -/
def steps (d : Destination) : List Component :=
  d.names.map .name ++ match d.up with
    | none => [.root]
    | some n => List.replicate n .up

/-- Where the walk leads with one step more. -/
def advance (d : Destination) : Component → Destination
  | .root => ⟨none, []⟩
  | .current => d
  | .up =>
    match d.names with
    | _ :: names => ⟨d.up, names⟩
    | [] => ⟨d.up.map (· + 1), []⟩
  | .name s => ⟨d.up, s :: d.names⟩

/-- No step is taken yet. -/
def here : Destination := ⟨some 0, []⟩

theorem reach_advance (d : Destination) (c : Component) (dir : List String) :
    (d.advance c).reach dir = Path.advance (d.reach dir) c := by
  obtain ⟨up, names⟩ := d
  cases c with
  | up =>
    cases names with
    | nil =>
      cases up with
      | none => rfl
      | some n => exact List.tail_drop.symm
    | cons s names => rfl
  | _ => rfl

theorem fold_steps (d : Destination) (c : Component) : fold d.steps c = (d.advance c).steps := by
  obtain ⟨up, names⟩ := d
  cases c with
  | up =>
    cases names with
    | nil =>
      cases up with
      | none => rfl
      | some n => cases n <;> rfl
    | cons s names => rfl
  | _ => rfl

theorem reach_foldl (steps : List Component) (d : Destination) (dir : List String) :
    (steps.foldl advance d).reach dir = steps.foldl Path.advance (d.reach dir) := by
  induction steps generalizing d with
  | nil => rfl
  | cons c steps ih => rw [List.foldl_cons, ih, reach_advance, List.foldl_cons]

theorem foldl_steps (steps : List Component) (d : Destination) :
    steps.foldl fold d.steps = (steps.foldl advance d).steps := by
  induction steps generalizing d with
  | nil => rfl
  | cons c steps ih => rw [List.foldl_cons, fold_steps, ih, List.foldl_cons]

theorem foldl_ups (n k : Nat) :
    (List.replicate n .up).foldl advance ⟨some k, []⟩ = ⟨some (k + n), []⟩ := by
  induction n generalizing k with
  | zero => rfl
  | succ n ih =>
    rw [List.replicate_succ, List.foldl_cons]
    exact (ih (k + 1)).trans (by rw [Nat.add_right_comm]; rfl)

theorem foldr_names (names : List String) (up : Option Nat) :
    (names.map Component.name).foldr (fun c d => advance d c) ⟨up, []⟩ = ⟨up, names⟩ := by
  induction names with
  | nil => rfl
  | cons s names ih => rw [List.map_cons, List.foldr_cons, ih]; rfl

theorem foldl_reverse_steps (d : Destination) : d.steps.reverse.foldl advance here = d := by
  obtain ⟨up, names⟩ := d
  rw [steps, List.reverse_append, List.foldl_append, List.foldl_reverse]
  cases up with
  | none => exact foldr_names names none
  | some n =>
    rw [List.reverse_replicate, here, foldl_ups, Nat.zero_add]
    exact foldr_names names (some n)

/-- Two destinations that are the same place from everywhere are equal: the root shows their names,
and a directory that is deep enough shows how far up they go. -/
theorem eq_of_reach (h : ∀ dir, d.reach dir = e.reach dir) : d = e := by
  obtain ⟨up, names⟩ := d
  obtain ⟨up', names'⟩ := e
  have hnames : names = names' := by
    have hroot := h []
    simp only [reach, List.drop_nil] at hroot
    cases up <;> cases up' <;> simpa using hroot
  subst hnames
  have hdeep := fun k => congrArg List.length (List.append_cancel_left (h (List.replicate k "")))
  cases up with
  | none =>
    cases up' with
    | none => rfl
    | some m =>
      have hm := hdeep (m + 1)
      simp at hm
  | some n =>
    cases up' with
    | none =>
      have hn := hdeep (n + 1)
      simp at hn
    | some m =>
      have hboth := hdeep (n + m + 1)
      simp only [List.length_drop, List.length_replicate] at hboth
      rw [show n = m by omega]

end Destination

/-- Where a path leads. -/
def destination (p : Path) : Destination := p.components.foldl Destination.advance .here

theorem lead_eq_reach (p : Path) (dir : List String) : p.lead dir = p.destination.reach dir := by
  rw [lead_eq, destination, Destination.reach_foldl]
  rfl

theorem normalSteps_eq (p : Path) : p.normalSteps = p.destination.steps.reverse :=
  congrArg List.reverse (Destination.foldl_steps p.components .here)

/-! ### The normal form -/

/-- Steps in normal form: the root or steps up, and names behind them. -/
inductive Normal : List Component → Prop
  | absolute (names : List String) : Normal (.root :: names.map .name)
  | relative (n : Nat) (names : List String) : Normal (List.replicate n .up ++ names.map .name)

theorem normal_steps (d : Destination) : Normal d.steps.reverse := by
  obtain ⟨up, names⟩ := d
  rw [Destination.steps, List.reverse_append, ← List.map_reverse]
  cases up with
  | none => exact .absolute names.reverse
  | some n =>
    rw [List.reverse_replicate]
    exact .relative n names.reverse

theorem name_mem_advance {d : Destination} {c : Component} {s : String}
    (h : s ∈ (d.advance c).names) : s ∈ d.names ∨ c = .name s := by
  obtain ⟨up, names⟩ := d
  cases c with
  | root => cases h
  | current => exact .inl h
  | up =>
    cases names with
    | nil => cases h
    | cons t names => exact .inl (List.mem_cons_of_mem _ h)
  | name t =>
    rcases List.mem_cons.mp h with rfl | h
    · exact .inr rfl
    · exact .inl h

/-- The names that a walk has entered are steps of its path. -/
theorem name_mem_of_foldl {steps : List Component} {d : Destination} {s : String}
    (h : s ∈ (steps.foldl Destination.advance d).names) : s ∈ d.names ∨ .name s ∈ steps := by
  induction steps generalizing d with
  | nil => exact .inl h
  | cons c steps ih =>
    rcases ih h with hd | hsteps
    · rcases name_mem_advance hd with hd | rfl
      · exact .inl hd
      · exact .inr List.mem_cons_self
    · exact .inr (List.mem_cons_of_mem _ hsteps)

theorem isEntry_of_mem_components {p : Path} {s : String} (h : .name s ∈ p.components) :
    IsEntry s := by
  rw [components_eq] at h
  rcases List.mem_append.mp h with h | h
  · -- no path begins with a name
    unfold opening at h
    split at h
    · cases h
    · split at h
      · simp at h
      · split at h <;> simp at h
  · exact isMove_of_mem_stepsOf h

theorem isEntry_of_mem_destination {p : Path} {s : String} (h : s ∈ p.destination.names) :
    IsEntry s := by
  rcases name_mem_of_foldl h with h | h
  · cases h
  · exact isEntry_of_mem_components h

/-- Behind the root, the normal steps of a path go up or into names. -/
theorem exists_moves (p : Path) : ∃ moves : List Component, (∀ c ∈ moves, c.IsMove) ∧
    (p.normalSteps = .root :: moves ∨ p.normalSteps = moves) := by
  have hnames : ∀ c ∈ p.destination.names.reverse.map Component.name, c.IsMove := by
    intro c hc
    obtain ⟨s, hs, rfl⟩ := List.mem_map.mp hc
    exact isEntry_of_mem_destination (List.mem_reverse.mp hs)
  rw [normalSteps_eq, Destination.steps, List.reverse_append, ← List.map_reverse]
  cases p.destination.up with
  | none => exact ⟨_, hnames, .inl rfl⟩
  | some n =>
    refine ⟨_, fun c hc => ?_, .inr rfl⟩
    rw [List.reverse_replicate] at hc
    rcases List.mem_append.mp hc with hc | hc
    · rw [List.eq_of_mem_replicate hc]
      trivial
    · exact hnames c hc

/-- The text of the normal form is read as the steps it was put together from. -/
theorem components_normalize (p : Path) : p.normalize.components = p.normalSteps := by
  obtain ⟨moves, hmoves, hsteps | hsteps⟩ := exists_moves p <;> rw [normalize, hsteps]
  · exact components_textOf_root hmoves
  · exact components_textOf hmoves

theorem dot_not_mem_normalize (p : Path) : ['.'] ∉ splitSlashes p.normalize.text.toList := by
  obtain ⟨moves, hmoves, hsteps | hsteps⟩ := exists_moves p <;>
    rw [normalize, hsteps, String.toList_ofList]
  · rw [textOf, splitSlashes_slash, List.mem_cons, not_or]
    exact ⟨List.cons_ne_nil _ _, dot_not_mem_joinSlashes hmoves⟩
  · rw [textOf_eq hmoves]
    exact dot_not_mem_joinSlashes hmoves

theorem destination_normalize (p : Path) : p.normalize.destination = p.destination := by
  rw [destination, components_normalize, normalSteps_eq, Destination.foldl_reverse_steps]

theorem normalize_eq_iff_destination {p q : Path} :
    p.normalize = q.normalize ↔ p.destination = q.destination := by
  refine ⟨fun h => ?_, fun h => ?_⟩
  · rw [← destination_normalize p, h, destination_normalize]
  · rw [normalize, normalize, normalSteps_eq, normalSteps_eq, h]

theorem destination_eq_iff {p q : Path} :
    p.destination = q.destination ↔ ∀ dir, p.lead dir = q.lead dir := by
  refine ⟨fun h dir => ?_, fun h => Destination.eq_of_reach fun dir => ?_⟩
  · rw [lead_eq_reach, lead_eq_reach, h]
  · rw [← lead_eq_reach, ← lead_eq_reach, h]

/-- The normal form leads wherever the path leads, it has no `.`, and `..` only in front of a
relative one, and two paths have the same normal form exactly if they lead to the same place from
every directory.  So a second normalization changes nothing. -/
theorem normalize_is_normal_form (p q : Path) :
    (∀ dir, p.normalize.lead dir = p.lead dir) ∧
    Normal p.normalize.components ∧ ['.'] ∉ splitSlashes p.normalize.text.toList ∧
    (p.normalize = q.normalize ↔ ∀ dir, p.lead dir = q.lead dir) ∧
    (p.normalize.Same q.normalize ↔ ∀ dir, p.lead dir = q.lead dir) ∧
    p.normalize.normalize = p.normalize := by
  have hlead : p.normalize = q.normalize ↔ ∀ dir, p.lead dir = q.lead dir :=
    normalize_eq_iff_destination.trans destination_eq_iff
  refine ⟨destination_eq_iff.mp (destination_normalize p), ?_, dot_not_mem_normalize p, hlead,
    ⟨fun h => ?_, fun h => congrArg components (hlead.mpr h)⟩,
    normalize_eq_iff_destination.mpr (destination_normalize p)⟩
  · rw [components_normalize, normalSteps_eq]
    exact normal_steps p.destination
  · -- the steps of the two normal forms lead to where the paths lead
    refine destination_eq_iff.mp ?_
    rw [← destination_normalize p, ← destination_normalize q, destination, destination,
      show p.normalize.components = q.normalize.components from h]

end Classlet.Path
