import Classlet.Path
import Mathlib.Data.List.DropRight

/-! # The steps of a path

`Path.components` reads a text by cutting it at its slashes.  Here the steps are told from the
parts of the text, so that what is done to a text can be said of its steps: what a push and a new
last name do to them (`components_push`, `components_setFileName`), and that a text put together
from steps is read as those steps (`components_textOf`). -/

namespace Classlet.Path

variable {p : Path} {cs ds : List Char} {parts : List (List Char)} {name : String}

/-! ### Slashes -/

theorem splitSlashes_ne_nil (cs : List Char) : splitSlashes cs ≠ [] := by
  cases cs with
  | nil => exact List.cons_ne_nil _ _
  | cons c cs =>
    unfold splitSlashes
    split
    · exact List.cons_ne_nil _ _
    · split <;> exact List.cons_ne_nil _ _

theorem splitSlashes_cons {c : Char} (hc : c ≠ '/') (cs : List Char) : ∃ part more,
    splitSlashes cs = part :: more ∧ splitSlashes (c :: cs) = (c :: part) :: more := by
  obtain ⟨part, more, h⟩ := List.exists_cons_of_ne_nil (splitSlashes_ne_nil cs)
  refine ⟨part, more, h, ?_⟩
  rw [splitSlashes, if_neg hc, h]

theorem splitSlashes_slash (cs : List Char) : splitSlashes ('/' :: cs) = [] :: splitSlashes cs :=
  rfl

theorem slash_not_mem_part : ∀ {cs part : List Char}, part ∈ splitSlashes cs → '/' ∉ part
  | [], part, h => by
      rw [splitSlashes, List.mem_singleton] at h
      rw [h]
      exact List.not_mem_nil
  | c :: cs, part, h => by
      by_cases hc : c = '/'
      · rw [splitSlashes, if_pos hc] at h
        rcases List.mem_cons.mp h with rfl | h
        · exact List.not_mem_nil
        · exact slash_not_mem_part h
      · obtain ⟨first, more, hsplit, hcons⟩ := splitSlashes_cons hc cs
        rw [hcons] at h
        rcases List.mem_cons.mp h with rfl | h
        · rw [List.mem_cons, not_or]
          exact ⟨Ne.symm hc, slash_not_mem_part (hsplit ▸ List.mem_cons_self)⟩
        · exact slash_not_mem_part (hsplit ▸ List.mem_cons_of_mem _ h)

theorem splitSlashes_append : ∀ cs ds : List Char,
    splitSlashes (cs ++ '/' :: ds) = splitSlashes cs ++ splitSlashes ds
  | [], ds => rfl
  | c :: cs, ds => by
      have ih := splitSlashes_append cs ds
      by_cases hc : c = '/'
      · rw [List.cons_append, splitSlashes, if_pos hc, splitSlashes, if_pos hc, ih]
        rfl
      · obtain ⟨part, more, hsplit, hcons⟩ := splitSlashes_cons hc cs
        rw [List.cons_append, splitSlashes, if_neg hc, ih, hcons, hsplit]
        rfl

theorem splitSlashes_of_not_mem : ∀ {cs : List Char}, '/' ∉ cs → splitSlashes cs = [cs]
  | [], _ => rfl
  | c :: cs, h => by
      rw [List.mem_cons, not_or] at h
      rw [splitSlashes, if_neg (Ne.symm h.1), splitSlashes_of_not_mem h.2]

theorem splitSlashes_joinSlashes : ∀ {parts : List (List Char)}, parts ≠ [] →
    (∀ part ∈ parts, '/' ∉ part) → splitSlashes (joinSlashes parts) = parts
  | [part], _, h => splitSlashes_of_not_mem (h part List.mem_cons_self)
  | part :: next :: more, _, h => by
      rw [joinSlashes, splitSlashes_append,
        splitSlashes_of_not_mem (h part List.mem_cons_self),
        splitSlashes_joinSlashes (List.cons_ne_nil _ _) fun q hq => h q (List.mem_cons_of_mem _ hq)]
      · rfl
      · exact List.cons_ne_nil _ _

/-! ### Steps -/

/-- The steps among the parts of a text. -/
def stepsOf (parts : List (List Char)) : List Component :=
  (parts.filter fun part => !isSkipped part).map Component.ofPart

/-- How a path begins.  A text that begins with a slash has an empty part in front of it. -/
def opening : List (List Char) → List Component
  | [] => []
  | part :: more =>
    if part = [] ∧ more ≠ [] then [.root] else if part = ['.'] then [.current] else []

theorem stepsOf_append (parts more : List (List Char)) :
    stepsOf (parts ++ more) = stepsOf parts ++ stepsOf more := by
  unfold stepsOf
  rw [List.filter_append, List.map_append]

theorem stepsOf_skipped {part : List Char} (h : isSkipped part = true) (more : List (List Char)) :
    stepsOf (part :: more) = stepsOf more := by
  unfold stepsOf
  rw [List.filter_cons, h]
  rfl

theorem stepsOf_cons {part : List Char} (h : isSkipped part = false) (more : List (List Char)) :
    stepsOf (part :: more) = .ofPart part :: stepsOf more := by
  unfold stepsOf
  rw [List.filter_cons, h]
  rfl

/-- A text that begins with no slash and no dot of its own has no beginning but its first step. -/
theorem opening_eq_nil (hroot : ∀ rest, cs ≠ '/' :: rest) (hdot : cs ≠ ['.'])
    (hcurrent : ∀ rest, cs ≠ '.' :: '/' :: rest) : opening (splitSlashes cs) = [] := by
  cases cs with
  | nil => rfl
  | cons c cs =>
    have hc : c ≠ '/' := fun h => hroot cs (h ▸ rfl)
    obtain ⟨part, more, hsplit, hcons⟩ := splitSlashes_cons hc cs
    rw [hcons, opening, if_neg (fun h => List.cons_ne_nil _ _ h.1), if_neg]
    intro hpart
    obtain ⟨rfl, rfl⟩ := List.cons.inj hpart
    -- the first part is a dot, so that the text is a dot or goes on with a slash
    cases cs with
    | nil => exact hdot rfl
    | cons d cs =>
      by_cases hd : d = '/'
      · exact hcurrent cs (hd ▸ rfl)
      · obtain ⟨first, rest, -, hmore⟩ := splitSlashes_cons hd cs
        rw [hmore] at hsplit
        cases hsplit

theorem components_ofList (cs : List Char) : (⟨String.ofList cs⟩ : Path).components =
    opening (splitSlashes cs) ++ stepsOf (splitSlashes cs) := by
  unfold components shape
  rw [String.toList_ofList]
  unfold Shape.ofText
  split
  · rename_i cs
    rw [splitSlashes_slash, stepsOf_skipped rfl, opening, if_pos ⟨rfl, splitSlashes_ne_nil cs⟩]
    rfl
  · rfl
  · rename_i cs
    rw [show splitSlashes ('.' :: '/' :: cs) = ['.'] :: splitSlashes cs from rfl,
      splitSlashes_slash, stepsOf_skipped rfl]
    rfl
  · rename_i hroot hdot hcurrent
    rw [opening_eq_nil hroot hdot hcurrent]
    rfl

theorem components_eq (p : Path) : p.components =
    opening (splitSlashes p.text.toList) ++ stepsOf (splitSlashes p.text.toList) := by
  rw [← components_ofList, String.ofList_toList]

/-! ### Texts made of steps -/

/-- A name that is a step: it is not empty, has no slash, and is not `.` or `..`. -/
structure IsEntry (name : String) : Prop where
  slash : '/' ∉ name.toList
  skipped : isSkipped name.toList = false
  up : name.toList ≠ ['.', '.']

/-- A step up or into a name. -/
def Component.IsMove : Component → Prop
  | .up => True
  | .name s => IsEntry s
  | _ => False

namespace Component

variable {c : Component}

theorem IsMove.slash (h : c.IsMove) : '/' ∉ c.part := by
  cases c with
  | up => decide
  | name s => exact h.slash
  | _ => exact h.elim

theorem IsMove.skipped (h : c.IsMove) : isSkipped c.part = false := by
  cases c with
  | up => rfl
  | name s => exact h.skipped
  | _ => exact h.elim

theorem IsMove.ofPart (h : c.IsMove) : ofPart c.part = c := by
  cases c with
  | up => rfl
  | name s =>
    rw [part, Component.ofPart, if_neg h.up, String.ofList_toList]
  | _ => exact h.elim

theorem isMove_ofPart {part : List Char} (hslash : '/' ∉ part) (hskip : isSkipped part = false) :
    (ofPart part).IsMove := by
  unfold Component.ofPart
  split
  · trivial
  · rename_i hup
    exact ⟨by rwa [String.toList_ofList], by rwa [String.toList_ofList],
      by rwa [String.toList_ofList]⟩

end Component

variable {steps : List Component}

/-- The steps of a path behind its beginning go up or into names. -/
theorem isMove_of_mem_stepsOf {c : Component} (h : c ∈ stepsOf (splitSlashes cs)) : c.IsMove := by
  unfold stepsOf at h
  obtain ⟨part, hpart, rfl⟩ := List.mem_map.mp h
  obtain ⟨hmem, hskip⟩ := List.mem_filter.mp hpart
  exact Component.isMove_ofPart (slash_not_mem_part hmem) (by simpa using hskip)

theorem stepsOf_parts : ∀ {steps : List Component}, (∀ c ∈ steps, c.IsMove) →
    stepsOf (steps.map Component.part) = steps
  | [], _ => rfl
  | c :: more, h => by
      have hc := h c List.mem_cons_self
      rw [List.map_cons, stepsOf_cons hc.skipped, hc.ofPart,
        stepsOf_parts fun d hd => h d (List.mem_cons_of_mem _ hd)]

theorem opening_of_not_skipped {part : List Char} (h : isSkipped part = false)
    (more : List (List Char)) : opening (part :: more) = [] := by
  simp only [isSkipped, Bool.or_eq_false_iff, decide_eq_false_iff_not] at h
  rw [opening, if_neg fun hpart => h.1 hpart.1, if_neg h.2]

theorem opening_parts (h : ∀ c ∈ steps, c.IsMove) : opening (steps.map Component.part) = [] := by
  cases steps with
  | nil => rfl
  | cons c more => exact opening_of_not_skipped (h c List.mem_cons_self).skipped _

/-- A text that is put together from parts has their steps. -/
theorem components_joinSlashes (h : ∀ part ∈ parts, '/' ∉ part) :
    (⟨String.ofList (joinSlashes parts)⟩ : Path).components = opening parts ++ stepsOf parts := by
  rw [components_ofList]
  cases parts with
  | nil => rfl
  | cons part more => rw [splitSlashes_joinSlashes (List.cons_ne_nil _ _) h]

theorem slash_not_mem_parts (h : ∀ c ∈ steps, c.IsMove) :
    ∀ part ∈ steps.map Component.part, '/' ∉ part := by
  intro part hpart
  obtain ⟨c, hc, rfl⟩ := List.mem_map.mp hpart
  exact (h c hc).slash

theorem textOf_eq (h : ∀ c ∈ steps, c.IsMove) :
    textOf steps = joinSlashes (steps.map Component.part) := by
  unfold textOf
  split
  · exact (h _ List.mem_cons_self).elim
  · rfl

theorem components_textOf (h : ∀ c ∈ steps, c.IsMove) :
    (⟨String.ofList (textOf steps)⟩ : Path).components = steps := by
  rw [textOf_eq h, components_joinSlashes (slash_not_mem_parts h), opening_parts h, stepsOf_parts h]
  rfl

theorem components_textOf_root (h : ∀ c ∈ steps, c.IsMove) :
    (⟨String.ofList (textOf (.root :: steps))⟩ : Path).components = .root :: steps := by
  rw [textOf, components_ofList, splitSlashes_slash, stepsOf_skipped rfl]
  cases steps with
  | nil => rfl
  | cons c more =>
    rw [splitSlashes_joinSlashes (by simp) (slash_not_mem_parts h), stepsOf_parts h]
    rfl

theorem dot_not_mem_joinSlashes (h : ∀ c ∈ steps, c.IsMove) :
    ['.'] ∉ splitSlashes (joinSlashes (steps.map Component.part)) := by
  cases steps with
  | nil => decide
  | cons c more =>
    rw [splitSlashes_joinSlashes (by simp) (slash_not_mem_parts h)]
    intro hdot
    obtain ⟨d, hd, hpart⟩ := List.mem_map.mp hdot
    have hskip := (h d hd).skipped
    rw [hpart] at hskip
    cases hskip

/-! ### Names at the end -/

theorem eq_nil_of_splitSlashes (h : splitSlashes cs = [[]]) : cs = [] := by
  cases cs with
  | nil => rfl
  | cons c cs =>
    by_cases hc : c = '/'
    · rw [splitSlashes, if_pos hc] at h
      exact absurd (List.cons.inj h).2 (splitSlashes_ne_nil cs)
    · obtain ⟨part, more, -, hcons⟩ := splitSlashes_cons hc cs
      rw [hcons] at h
      cases h

/-- With a part more a path begins as before, unless it was empty. -/
theorem opening_concat (hne : parts ≠ []) (hempty : parts ≠ [[]]) (part : List Char) :
    opening (parts ++ [part]) = opening parts := by
  obtain ⟨first, more, rfl⟩ := List.exists_cons_of_ne_nil hne
  rw [List.cons_append, opening, opening]
  by_cases hfirst : first = []
  · have hmore : more ≠ [] := fun h => hempty (by rw [hfirst, h])
    rw [if_pos ⟨hfirst, by simp⟩, if_pos ⟨hfirst, hmore⟩]
  · simp only [hfirst, false_and, if_false]

/-- It does not matter for the beginning what the last part is. -/
theorem opening_concat_eq (hne : parts ≠ []) (part other : List Char) :
    opening (parts ++ [part]) = opening (parts ++ [other]) := by
  obtain ⟨first, more, rfl⟩ := List.exists_cons_of_ne_nil hne
  simp [opening]

theorem components_push (p : Path) (hname : IsEntry name) :
    (p.push ⟨name⟩).components = p.components ++ [.name name] := by
  have hsplit : splitSlashes name.toList = [name.toList] := splitSlashes_of_not_mem hname.slash
  have hmove : ∀ c ∈ [Component.name name], c.IsMove := fun c hc => List.mem_singleton.mp hc ▸ hname
  have hsteps : stepsOf [name.toList] = [.name name] := stepsOf_parts hmove
  have habsolute : isAbsolute ⟨name⟩ = false := by
    unfold isAbsolute
    cases htext : name.toList with
    | nil => rfl
    | cons c cs =>
      have hc : c ≠ '/' := fun h => hname.slash (by rw [htext, h]; exact List.mem_cons_self)
      simpa using hc
  rw [push, habsolute, components_eq p, if_neg Bool.false_ne_true]
  split
  · rename_i hend
    rcases (Bool.or_eq_true _ _).mp hend with hempty | hslash
    · have htext : p.text = "" := String.isEmpty_iff.mp hempty
      rw [htext, components_eq, String.empty_append, hsplit, hsteps]
      rw [opening_of_not_skipped hname.skipped]
      rfl
    · obtain ⟨front, hfront⟩ := List.getLast?_eq_some_iff.mp (eq_of_beq hslash)
      have hne := splitSlashes_ne_nil front
      rw [components_eq, String.toList_append, hfront, List.append_assoc, List.singleton_append,
        splitSlashes_append, splitSlashes_append, hsplit, stepsOf_append, hsteps,
        show splitSlashes [] = [[]] from rfl, stepsOf_append, opening_concat_eq hne _ [],
        ← List.append_assoc, show stepsOf [[]] = [] from rfl, List.append_nil]
  · rename_i hend
    have htext : p.text.toList ≠ [] := by
      intro h
      rw [String.toList_eq_nil_iff] at h
      exact hend (by rw [h]; rfl)
    have hslash : (⟨p.text ++ "/" ++ name⟩ : Path).text.toList =
        p.text.toList ++ '/' :: name.toList := by
      simp
    rw [components_eq, hslash, splitSlashes_append, hsplit, stepsOf_append, hsteps,
      opening_concat (splitSlashes_ne_nil _) fun h => htext (eq_nil_of_splitSlashes h),
      List.append_assoc]

/-! ### The path without its last step -/

/-- Dropping the parts at the end that are no steps drops no step. -/
theorem stepsOf_dropSkipped (parts : List (List Char)) :
    stepsOf (dropSkipped parts) = stepsOf parts := by
  induction parts using List.reverseRecOn with
  | nil => rfl
  | append_singleton front part ih =>
    have hdrop : dropSkipped (front ++ [part]) =
        if isSkipped part then dropSkipped front else front ++ [part] :=
      List.rdropWhile_concat _ _ _
    rw [hdrop]
    split
    · rename_i hskip
      rw [ih, stepsOf_append, stepsOf_skipped hskip]
      exact (List.append_nil _).symm
    · rfl

theorem not_skipped_of_dropSkipped {front : List (List Char)} {part : List Char}
    (h : dropSkipped parts = front ++ [part]) : isSkipped part = false := by
  have hself : dropSkipped (front ++ [part]) = front ++ [part] :=
    h ▸ List.rdropWhile_idempotent isSkipped parts
  have hlast := List.rdropWhile_eq_self_iff.mp hself (List.append_ne_nil_of_right_ne_nil _ nofun)
  rw [List.getLast_concat] at hlast
  exact (Bool.not_eq_true _).mp hlast

theorem dropSkipped_isPrefix (parts : List (List Char)) : dropSkipped parts <+: parts :=
  List.rdropWhile_prefix _ _

theorem opening_eq_nil_of_isPrefix {more : List (List Char)} (h : parts <+: more)
    (hmore : opening more = []) : opening parts = [] := by
  obtain ⟨rest, rfl⟩ := h
  cases parts with
  | nil => rfl
  | cons part parts =>
    rw [List.cons_append, opening] at hmore
    rw [opening]
    split at hmore
    · cases hmore
    · rename_i hroot
      rw [if_neg fun h => hroot ⟨h.1, fun hnil => h.2 (List.append_eq_nil_iff.mp hnil).1⟩]
      exact hmore

namespace Shape

variable {s : Shape}

/-- A shape that a text has: its parts go with the way it begins. -/
structure Fits (s : Shape) : Prop where
  slash : ∀ part ∈ s.parts, '/' ∉ part
  start : s.start = some .root ∨ (s.start = some .current ∧ ∀ part ∈ s.parts.head?, part = []) ∨
    (s.start = none ∧ opening s.parts = [])

theorem fits_ofText (cs : List Char) : (ofText cs).Fits := by
  unfold ofText
  split
  · exact ⟨fun _ => slash_not_mem_part, .inl rfl⟩
  · exact ⟨nofun, .inr (.inl ⟨rfl, nofun⟩)⟩
  · refine ⟨fun _ => slash_not_mem_part, .inr (.inl ⟨rfl, fun part h => ?_⟩)⟩
    rw [splitSlashes_slash] at h
    exact (Option.mem_some.mp h).symm
  · rename_i hroot hdot hcurrent
    exact ⟨fun _ => slash_not_mem_part, .inr (.inr ⟨rfl, opening_eq_nil hroot hdot hcurrent⟩)⟩

theorem Fits.components_text (h : s.Fits) :
    (⟨String.ofList s.text⟩ : Path).components = s.start.toList ++ stepsOf s.parts := by
  have hsteps : stepsOf (splitSlashes (joinSlashes s.parts)) = stepsOf s.parts := by
    cases hparts : s.parts with
    | nil => rfl
    | cons part more =>
      rw [splitSlashes_joinSlashes (List.cons_ne_nil _ _) (hparts ▸ h.slash)]
  rcases h.start with hstart | ⟨hstart, hhead⟩ | ⟨hstart, hopening⟩
  · rw [text, hstart]
    dsimp only
    rw [components_ofList, splitSlashes_slash, stepsOf_skipped rfl, hsteps, opening,
      if_pos ⟨rfl, splitSlashes_ne_nil _⟩]
    rfl
  · rw [text, hstart]
    dsimp only
    match hparts : s.parts with
    | [] => rfl
    | [part] =>
      rw [hparts] at hhead
      obtain rfl : part = [] := hhead part rfl
      rfl
    | part :: next :: more =>
      rw [hparts] at hhead hsteps
      obtain rfl : part = [] := hhead part rfl
      change stepsOf (splitSlashes ('/' :: joinSlashes (next :: more))) = _ at hsteps
      rw [splitSlashes_slash, stepsOf_skipped rfl] at hsteps
      rw [components_ofList]
      change opening (['.'] :: splitSlashes (joinSlashes (next :: more))) ++
        stepsOf (['.'] :: splitSlashes (joinSlashes (next :: more))) = _
      rw [stepsOf_skipped rfl, hsteps]
      rfl
  · rw [text, hstart]
    dsimp only
    rw [components_joinSlashes h.slash, hopening]
    rfl

theorem Fits.upTo (h : s.Fits) {parts : List (List Char)} (hparts : parts <+: s.parts) :
    Fits { s with parts := parts } where
  slash part hpart := h.slash part (hparts.subset hpart)
  start := by
    rcases h.start with hstart | ⟨hstart, hhead⟩ | ⟨hstart, hopening⟩
    · exact .inl hstart
    · refine .inr (.inl ⟨hstart, fun part hpart => hhead part ?_⟩)
      obtain ⟨rest, hrest⟩ := hparts
      rw [← hrest, List.head?_append, show parts.head? = some part from hpart]
      rfl
    · exact .inr (.inr ⟨hstart, opening_eq_nil_of_isPrefix hparts hopening⟩)

end Shape

theorem fileName?_eq_some : p.fileName? = some name ↔
    p.components.getLast? = some (.name name) := by
  unfold fileName?
  split
  · rename_i s hlast
    rw [hlast, Option.some_inj, Option.some_inj, Component.name.injEq]
  · rename_i hnone
    exact ⟨nofun, fun h => (hnone _ h).elim⟩

/-- The name at the end of a shape that fits a text is its last part that is a step. -/
theorem exists_last_part {s : Shape} (h : s.Fits)
    (hlast : (s.start.toList ++ stepsOf s.parts).getLast? = some (.name name)) :
    ∃ front part, dropSkipped s.parts = front ++ [part] ∧
      stepsOf s.parts = stepsOf front ++ [.name name] := by
  rw [← stepsOf_dropSkipped] at hlast ⊢
  rcases List.eq_nil_or_concat (dropSkipped s.parts) with hnil | ⟨front, part, hconcat⟩
  · rw [hnil] at hlast
    rcases h.start with hstart | ⟨hstart, -⟩ | ⟨hstart, -⟩ <;> rw [hstart] at hlast <;> cases hlast
  · rw [List.concat_eq_append] at hconcat
    have hskip : isSkipped part = false := not_skipped_of_dropSkipped hconcat
    rw [hconcat, stepsOf_append, stepsOf_cons hskip, ← List.append_assoc] at hlast
    have hname : Component.ofPart part = .name name := by simpa [stepsOf] using hlast
    refine ⟨front, part, hconcat, ?_⟩
    rw [hconcat, stepsOf_append, stepsOf_cons hskip, hname]
    rfl

/-- A path that ends in a name is its parent with the name behind it. -/
theorem exists_parent (h : p.fileName? = some name) :
    ∃ q, p.parent? = some q ∧ p.components = q.components ++ [.name name] := by
  have hfits : p.shape.Fits := Shape.fits_ofText _
  obtain ⟨front, part, hdrop, hsteps⟩ := exists_last_part hfits (fileName?_eq_some.mp h)
  have hfront : dropSkipped front <+: p.shape.parts := (dropSkipped_isPrefix front).trans
    ((List.prefix_append front [part]).trans (hdrop ▸ dropSkipped_isPrefix p.shape.parts))
  refine ⟨⟨String.ofList ({ p.shape with parts := dropSkipped front } : Shape).text⟩, ?_, ?_⟩
  · rw [parent?, hdrop, List.reverse_concat]
    dsimp only
    rw [List.reverse_reverse]
  · rw [(hfits.upTo hfront).components_text, stepsOf_dropSkipped, List.append_assoc, ← hsteps]
    rfl

/-- A name that takes the place of the last name, or is put behind a path that ends in none. -/
theorem components_setFileName (p : Path) (hname : IsEntry name) :
    (p.setFileName name).components =
      (if p.fileName?.isSome then p.components.dropLast else p.components) ++ [.name name] := by
  unfold setFileName
  cases hlast : p.fileName? with
  | none => exact components_push p hname
  | some last =>
    obtain ⟨q, hparent, hsteps⟩ := exists_parent hlast
    rw [hparent, hsteps, List.dropLast_concat]
    exact components_push q hname

end Classlet.Path
