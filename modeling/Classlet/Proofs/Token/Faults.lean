import Mathlib.Algebra.Group.Nat.Defs
import Classlet.Proofs.Token.Joined

/-! # Where the faults of a text are found

A `Report` is a fault with the characters that have been read when it is found.  The errors of a
text that is refused are its reports in their order (`reportsFrom`), each on the line that its
newlines say, save for newlines behind a backslash in a string: those are faults themselves, and
the scanner does not count them (`scan_errors_located`).  So an error is one line too low for each
of them that has been reported.  The lines never go back as long as 32 bits can count them: they are
natural numbers (`errorAt`) until they are cut (`cutError`).

What is reported of a front of a text (`Reported`) is put together from what is reported of its
pieces (`Reported.append`): the characters of a string, and the items of a text. -/

namespace Classlet.Token

variable {c : Char} {cs ds : List Char} {line lost : Nat}

/-! ### Reports -/

/-- A fault, and the characters that have been read when it is found. -/
structure Report where
  read : List Char
  fault : ScanFault
  deriving DecidableEq

namespace Report

/-- The same report with more characters in front. -/
def behind (front : List Char) (r : Report) : Report := { r with read := front ++ r.read }

/-- Whether the fault is a newline behind a backslash in a string, which is not counted. -/
def uncounted (r : Report) : Bool := r.fault == .unknownEscape '\n'

@[simp] theorem read_behind (front : List Char) (r : Report) :
    (r.behind front).read = front ++ r.read := rfl

/-- What has been read of the text `cs` ends in what the fault is about.  A string without end is
found at the end of the text, and a backslash there counts as an escape of NUL. -/
def Shown (cs : List Char) (r : Report) : Prop :=
  match r.fault with
  | .loneBang => ['!'] <:+ r.read
  | .unexpected c => [c] <:+ r.read
  | .unknownEscape c => ['\\', c] <:+ r.read ∨ (c = '\x00' ∧ ['\\'] <:+ r.read ∧ r.read = cs)
  | .unterminatedString => r.read = cs
  | .integerTooLarge digits => digits.toList <:+ r.read

theorem Shown.behind {r : Report} (h : r.Shown cs) (front : List Char) :
    (r.behind front).Shown (front ++ cs) := by
  have hsuffix : ∀ {ds}, ds <:+ r.read → ds <:+ front ++ r.read :=
    fun hds => hds.trans (List.suffix_append front r.read)
  obtain ⟨read, fault⟩ := r
  cases fault with
  | loneBang => exact hsuffix h
  | unexpected c => exact hsuffix h
  | unknownEscape c => exact h.imp hsuffix fun ⟨hc, hds, hall⟩ =>
      ⟨hc, hsuffix hds, congrArg (front ++ ·) hall⟩
  | unterminatedString => exact congrArg (front ++ ·) h
  | integerTooLarge digits => exact hsuffix h

end Report

/-- The faults inside of a string, in the order in which they are found. -/
def stringReports : List Char → List Report
  | [] => [⟨[], .unterminatedString⟩]
  | '\\' :: [] => [⟨['\\'], .unknownEscape '\x00'⟩, ⟨['\\'], .unterminatedString⟩]
  | '\\' :: c :: cs =>
    match unescape? c with
    | some _ => (stringReports cs).map (.behind ['\\', c])
    | none => ⟨['\\', c], .unknownEscape c⟩ :: (stringReports cs).map (.behind ['\\', c])
  | c :: cs =>
    if c == '"' then []
    else (stringReports cs).map (.behind [c])

/-- The faults of the item that begins with `c`.  Outside of strings an item has one fault at most,
which is found when all its characters have been read. -/
def itemReports (c : Char) (cs : List Char) : List Report :=
  match (scanNext c cs).item with
  | .faulty faults =>
    if c = '"' then (stringReports cs).map (.behind ['"'])
    else faults.map fun p => ⟨(scanNext c cs).taken, p.2⟩
  | _ => []

/-- The faults of a text, in the order in which they are found. -/
def reportsFrom : List Char → List Report
  | [] => []
  | c :: cs =>
    itemReports c cs ++ (reportsFrom (scanNext c cs).rest).map (.behind (scanNext c cs).taken)
termination_by cs => cs.length
decreasing_by
  have := length_rest_scanNext c cs
  simp only [List.length_cons]
  omega

/-! ### The order of reports -/

/-- Reports of the text `cs` are found in their order while `taken` is read. -/
structure Found (cs taken : List Char) (rs : List Report) : Prop where
  front : ∀ r ∈ rs, r.read <+: taken
  shown : ∀ r ∈ rs, r.Shown cs
  order : rs.Pairwise fun r r' => r.read <+: r'.read

namespace Found

variable {taken more : List Char} {r : Report} {rs rs' : List Report}

theorem nil : Found cs taken [] where
  front _ hr := nomatch hr
  shown _ hr := nomatch hr
  order := List.Pairwise.nil

theorem single (hfront : r.read <+: taken) (hshown : r.Shown cs) : Found cs taken [r] :=
  ⟨List.forall_mem_singleton.mpr hfront, List.forall_mem_singleton.mpr hshown,
    List.pairwise_singleton _ _⟩

theorem behind (h : Found cs taken rs) (front : List Char) :
    Found (front ++ cs) (front ++ taken) (rs.map (.behind front)) where
  front := List.forall_mem_map.mpr fun r hr =>
    (List.prefix_append_right_inj front).mpr (h.front r hr)
  shown := List.forall_mem_map.mpr fun r hr => (h.shown r hr).behind front
  order := List.pairwise_map.mpr <| h.order.imp fun hr =>
    (List.prefix_append_right_inj front).mpr hr

/-- Reports of a front of a text, and reports behind that front. -/
theorem append (h : Found (taken ++ cs) taken rs) (h' : Found cs more rs') :
    Found (taken ++ cs) (taken ++ more) (rs ++ rs'.map (.behind taken)) where
  front := List.forall_mem_append.mpr
    ⟨fun r hr => (h.front r hr).trans (List.prefix_append taken more), (h'.behind taken).front⟩
  shown := List.forall_mem_append.mpr ⟨h.shown, (h'.behind taken).shown⟩
  order := List.pairwise_append.mpr ⟨h.order, (h'.behind taken).order, fun r hr r' hr' => by
    obtain ⟨q, -, rfl⟩ := List.mem_map.mp hr'
    exact (h.front r hr).trans (List.prefix_append taken q.read)⟩

end Found

/-! ### Errors on the lines of reports -/

/-- The line of a fault before which newlines have been counted, with the fault. -/
def errorAt (line : Nat) (p : Nat × ScanFault) : Nat × ScanFault := (line + p.1, p.2)

/-- The error on a line, of whose number 32 bits are kept. -/
def cutError (p : Nat × ScanFault) : SyntaxError := ⟨.ofNat p.1, .scanning p.2⟩

/-- The errors of a text that begins on a line are those reports, in their order.  Of the newlines
that have been read, `lost` have not been counted before the first of them. -/
inductive Located (line : Nat) : Nat → List (Nat × ScanFault) → List Report → Prop
  | nil (lost : Nat) : Located line lost [] []
  | cons {lost : Nat} {e : Nat × ScanFault} {r : Report} {es : List (Nat × ScanFault)}
      {rs : List Report} :
      e.2 = r.fault →
      e.1 + (lost + [r].countP Report.uncounted) = line + r.read.count '\n' →
      Located line (lost + [r].countP Report.uncounted) es rs →
      Located line lost (e :: es) (r :: rs)

namespace Located

variable {es es' : List (Nat × ScanFault)} {rs rs' : List Report}

theorem append (h : Located line lost es rs)
    (h' : Located line (lost + rs.countP Report.uncounted) es' rs') :
    Located line lost (es ++ es') (rs ++ rs') := by
  induction h with
  | nil lost => exact h'
  | @cons lost e r es rs hfault hline _ ih =>
      refine .cons hfault hline (ih ?_)
      rwa [Nat.add_assoc, ← List.countP_append, List.singleton_append]

/-- Errors behind a front of a text whose newlines have been counted, save for `k` of them. -/
theorem behind {front : List Char} {line' k : Nat} (h : Located line' lost es rs)
    (hfront : line' + k = line + front.count '\n') :
    Located line (k + lost) es (rs.map (.behind front)) := by
  induction h with
  | nil lost => exact .nil _
  | @cons lost e r es rs hfault hline _ ih =>
      have hsame : [r.behind front].countP Report.uncounted = [r].countP Report.uncounted := rfl
      refine .cons hfault ?_ ?_
      · rw [hsame, Report.read_behind, List.count_append]
        omega
      · rw [hsame, Nat.add_assoc]
        exact ih

theorem map_fault (h : Located line lost es rs) :
    es.map Prod.snd = rs.map Report.fault := by
  induction h with
  | nil lost => rfl
  | cons hfault _ _ ih => rw [List.map_cons, List.map_cons, hfault, ih]

theorem line_eq (h : Located line lost es rs) {i : Nat} {e : Nat × ScanFault} {r : Report}
    (he : es[i]? = some e) (hr : rs[i]? = some r) :
    e.1 + (lost + (rs.take (i + 1)).countP Report.uncounted) = line + r.read.count '\n' := by
  induction h generalizing i with
  | nil lost => cases he
  | @cons lost e' r' es rs hfault hline _ ih =>
      cases i with
      | zero =>
          cases he
          cases hr
          exact hline
      | succ i =>
          have hlater := ih he hr
          rwa [Nat.add_assoc, ← List.countP_append, List.singleton_append] at hlater

end Located

/-! ### Lines that do not go back -/

/-- Errors in the order of their lines, between two lines. -/
structure Ascending (first last : Nat) (es : List (Nat × ScanFault)) : Prop where
  le : first ≤ last
  within : ∀ e ∈ es, first ≤ e.1 ∧ e.1 ≤ last
  sorted : es.Pairwise fun e e' => e.1 ≤ e'.1

namespace Ascending

variable {first mid last : Nat} {es es' : List (Nat × ScanFault)}

theorem nil (h : first ≤ last) : Ascending first last [] where
  le := h
  within _ he := nomatch he
  sorted := List.Pairwise.nil

theorem single (line : Nat) (fault : ScanFault) :
    Ascending line line [errorAt line (0, fault)] where
  le := Nat.le_refl _
  within := List.forall_mem_singleton.mpr ⟨Nat.le_refl _, Nat.le_refl _⟩
  sorted := List.pairwise_singleton _ _

theorem append (h : Ascending first mid es) (h' : Ascending mid last es') :
    Ascending first last (es ++ es') where
  le := Nat.le_trans h.le h'.le
  within := List.forall_mem_append.mpr
    ⟨fun e he => ⟨(h.within e he).1, Nat.le_trans (h.within e he).2 h'.le⟩,
      fun e he => ⟨Nat.le_trans h.le (h'.within e he).1, (h'.within e he).2⟩⟩
  sorted := List.pairwise_append.mpr ⟨h.sorted, h'.sorted, fun e he e' he' =>
    Nat.le_trans (h.within e he).2 (h'.within e' he').1⟩

/-- Lines that 32 bits can count are in order when they are cut. -/
theorem pairwise_cut (h : Ascending first last es) (hfits : last < 2 ^ 32) :
    (es.map cutError).Pairwise fun e e' => e.line ≤ e'.line := by
  have hcut : ∀ e ∈ es, (cutError e).line.toNat = e.1 := fun e he =>
    UInt32.toNat_ofNat_of_lt' (Nat.lt_of_le_of_lt (h.within e he).2 hfits)
  refine List.pairwise_map.mpr (h.sorted.imp_of_mem fun he he' hle => ?_)
  rwa [UInt32.le_iff_toNat_le, hcut _ he, hcut _ he']

end Ascending

/-! ### What is reported of a front of a text -/

theorem countP_behind (front : List Char) (rs : List Report) :
    (rs.map (Report.behind front)).countP Report.uncounted = rs.countP Report.uncounted := by
  rw [List.countP_map]
  rfl

/-- These are the reports of `taken`, a front of the text `cs`, in which `newlines` newlines are
counted.  If it begins on a line, its errors are `errors line`. -/
structure Reported (cs taken rest : List Char) (newlines : Nat)
    (errors : Nat → List (Nat × ScanFault)) (rs : List Report) : Prop where
  split : taken ++ rest = cs
  counts : newlines + rs.countP Report.uncounted = taken.count '\n'
  found : Found cs taken rs
  located (line : Nat) : Located line 0 (errors line) rs
  ascending (line : Nat) : Ascending line (line + newlines) (errors line)

namespace Reported

variable {taken rest more back : List Char} {newlines newlines' : Nat} {fault : ScanFault}
  {errors errors' : Nat → List (Nat × ScanFault)} {rs rs' : List Report}

/-- Where every newline is counted, nothing is reported. -/
theorem quiet (hsplit : taken ++ rest = cs) (hcount : newlines = taken.count '\n') :
    Reported cs taken rest newlines (fun _ => []) [] where
  split := hsplit
  counts := hcount
  found := .nil
  located _ := .nil 0
  ascending line := .nil (Nat.le_add_right line newlines)

/-- A fault that ends what has been read.  The only newline there can be is one behind a backslash,
which is the fault. -/
theorem single (hsplit : taken ++ rest = cs) (hshown : (Report.mk taken fault).Shown cs)
    (hcount : [Report.mk taken fault].countP Report.uncounted = taken.count '\n') :
    Reported cs taken rest 0 (fun line => [errorAt line (0, fault)]) [⟨taken, fault⟩] where
  split := hsplit
  counts := (Nat.zero_add _).trans hcount
  found := .single List.prefix_rfl hshown
  located line := .cons rfl (by rw [Nat.zero_add, hcount]; rfl) (.nil _)
  ascending line := .single line fault

/-- What is read behind a front of the text begins on the line that has been counted there. -/
theorem append (h : Reported cs taken rest newlines errors rs)
    (h' : Reported rest more back newlines' errors' rs') :
    Reported cs (taken ++ more) back (newlines + newlines')
      (fun line => errors line ++ errors' (line + newlines))
      (rs ++ rs'.map (.behind taken)) := by
  obtain rfl := h.split
  exact {
    split := by rw [List.append_assoc, h'.split]
    counts := by
      rw [List.countP_append, countP_behind, List.count_append, ← h.counts, ← h'.counts]
      omega
    found := h.found.append h'.found
    located := fun line => by
      refine (h.located line).append ?_
      rw [Nat.add_comm 0]
      exact (h'.located _).behind (by rw [Nat.add_assoc, h.counts])
    ascending := fun line => by
      refine (h.ascending line).append ?_
      rw [← Nat.add_assoc]
      exact h'.ascending _ }

/-- Characters in front that are no newlines move no line. -/
theorem behind (h : Reported cs taken rest newlines errors rs) {front : List Char}
    (hfront : front.count '\n' = 0) :
    Reported (front ++ cs) (front ++ taken) rest newlines errors (rs.map (.behind front)) := by
  simpa using (quiet rfl hfront.symm).append h

end Reported

/-! ### Strings -/

theorem stringReports_cons (h : c ≠ '\\') (cs : List Char) : stringReports (c :: cs) =
    if c == '"' then [] else (stringReports cs).map (.behind [c]) := by
  rw [stringReports.eq_def]
  split
  · simp at *
  · simp_all
  · simp_all
  · simp_all

theorem errors_pushNewline (line : Nat) (body : StringBody) :
    body.pushNewline.faults.map (errorAt line) = body.faults.map (errorAt (line + 1)) := by
  rw [StringBody.pushNewline, List.map_map]
  refine List.map_congr_left fun p _ => ?_
  simp [errorAt, Nat.add_comm, Nat.add_left_comm]

def StringBody.Reported (body : StringBody) (cs : List Char) (rs : List Report) : Prop :=
  Token.Reported cs body.taken body.rest body.newlines
    (fun line => body.faults.map (errorAt line)) rs

namespace StringBody.Reported

variable {body : StringBody} {rs : List Report} {read : List Char}

theorem push (h : body.Reported cs rs) (hread : read.count '\n' = 0) (meant : Char) :
    (body.push read meant).Reported (read ++ cs) (rs.map (.behind read)) :=
  Token.Reported.behind h hread

/-- A character behind a backslash may be a newline, which is not counted then. -/
theorem pushFault (h : body.Reported cs rs) (c : Char) :
    ((body.push ['\\', c] c).pushFault (.unknownEscape c)).Reported ('\\' :: c :: cs)
      (⟨['\\', c], .unknownEscape c⟩ :: rs.map (.behind ['\\', c])) := by
  have hcount : [Report.mk ['\\', c] (.unknownEscape c)].countP Report.uncounted =
      ['\\', c].count '\n' := by
    by_cases hc : c = '\n' <;> simp [Report.uncounted, hc]
  have hescape : Token.Reported ('\\' :: c :: cs) ['\\', c] cs 0
      (fun line => [errorAt line (0, .unknownEscape c)]) [⟨['\\', c], .unknownEscape c⟩] :=
    .single rfl (.inl List.suffix_rfl) hcount
  have hwhole := hescape.append h
  rw [Nat.zero_add] at hwhole
  exact hwhole

theorem pushNewline (h : body.Reported cs rs) :
    body.pushNewline.Reported ('\n' :: cs) (rs.map (.behind ['\n'])) := by
  have hnewline : Token.Reported ('\n' :: cs) ['\n'] cs 1 (fun _ => []) [] := .quiet rfl rfl
  have hwhole := hnewline.append h
  rw [Nat.add_comm 1] at hwhole
  simp only [StringBody.Reported, errors_pushNewline]
  exact hwhole

end StringBody.Reported

theorem stringBody_reported (cs : List Char) : (stringBody cs).Reported cs (stringReports cs) := by
  have hend : Reported [] [] [] 0 (fun line => [errorAt line (0, .unterminatedString)])
      [⟨[], .unterminatedString⟩] := .single rfl rfl rfl
  fun_induction stringBody cs with
  | case1 => exact hend
  | case2 =>
      have hescape : Reported ['\\'] ['\\'] [] 0
          (fun line => [errorAt line (0, .unknownEscape '\x00')])
          [⟨['\\'], .unknownEscape '\x00'⟩] :=
        .single rfl (.inr ⟨rfl, List.suffix_rfl, rfl⟩) rfl
      exact hescape.append hend
  | case3 c cs meant hc ih =>
      have hne : c ≠ '\n' := by
        rintro rfl
        cases hc
      simp only [stringReports, hc]
      exact ih.push (by simp [hne]) meant
  | case4 c cs hc ih =>
      simp only [stringReports, hc]
      exact ih.pushFault c
  | case5 c cs hlast hmore hquote =>
      obtain rfl : c = '"' := beq_iff_eq.mp hquote
      rw [stringReports_cons (by decide), if_pos hquote]
      exact .quiet rfl rfl
  | case6 c cs hlast hmore hquote hnewline ih =>
      obtain rfl : c = '\n' := beq_iff_eq.mp hnewline
      rw [stringReports_cons (by decide), if_neg hquote]
      exact ih.pushNewline
  | case7 c cs hlast hmore hquote hnewline ih =>
      have hne : c ≠ '\n' := fun hc => hnewline (beq_iff_eq.mpr hc)
      rw [stringReports_cons (ne_backslash hlast hmore), if_neg hquote]
      exact ih.push (by simp [hne]) c

/-! ### Items -/

/-- An item that is no string has one fault, which ends it. -/
structure Reading.Fails (r : Reading) (cs : List Char) (fault : ScanFault) : Prop where
  item : r.item = .faulty [(0, fault)]
  accounts : r.Accounts cs
  newlines : r.newlines = 0
  shown : (Report.mk r.taken fault).Shown cs
  counted : (Report.mk r.taken fault).uncounted = false

theorem scanNumber_fails {faults : List (Nat × ScanFault)} (hc : c ≠ '\n')
    (h : (scanNumber c cs).item = .faulty faults) :
    ∃ fault, (scanNumber c cs).Fails (c :: cs) fault := by
  have hfault : (scanNumber c cs).newlines = 0 ∧ (scanNumber c cs).item =
      .faulty [(0, .integerTooLarge (String.ofList (scanNumber c cs).taken))] := by
    unfold scanNumber at h ⊢
    dsimp only at h ⊢
    split at h
    · split at h
      · cases h
      · split at h
        · cases h
        · simp_all
    · split at h
      · cases h
      · simp_all
  refine ⟨_, hfault.2, scanNumber_accounts hc cs, hfault.1, ?_, rfl⟩
  show (String.ofList _).toList <:+ _
  simp only [String.toList_ofList, List.suffix_rfl]

theorem scanSingle_fails {faults : List (Nat × ScanFault)} (hc : c ≠ '"')
    (h : (scanSingle c cs).item = .faulty faults) :
    ∃ fault, (scanSingle c cs).Fails (c :: cs) fault := by
  by_cases hnewline : c = '\n'
  · subst hnewline
    cases h
  unfold scanSingle at h ⊢
  cases hs : singleSymbol? c with
  | some s => simp [hs, symbolReading] at h
  | none =>
      cases ht : shortSymbol? c with
      | some s => simp [hs, ht, symbolReading] at h
      | none =>
          simp only [hs, ht] at h
          dsimp only
          -- only a lone `!`, a number and a character that begins nothing can fail
          split at h
          case isTrue hbang =>
            rw [if_pos hbang]
            exact ⟨_, rfl, accounts_one _ hnewline cs, rfl,
              beq_iff_eq.mp hbang ▸ List.suffix_rfl, rfl⟩
          case isFalse hbang =>
            rw [if_neg hbang]
            split at h
            · cases h
            split at h
            · cases h
            split at h
            case isTrue hquote => exact absurd (beq_iff_eq.mp hquote) hc
            split at h
            · simpa [*] using scanNumber_fails hnewline h
            split at h
            · simp only [scanWord] at h
              split at h <;> cases h
            · simp only [*]
              exact ⟨_, rfl, accounts_one _ hnewline cs, rfl, List.suffix_rfl, rfl⟩

theorem scanNext_fails {faults : List (Nat × ScanFault)} (hc : c ≠ '"')
    (h : (scanNext c cs).item = .faulty faults) :
    ∃ fault, (scanNext c cs).Fails (c :: cs) fault := by
  cases cs with
  | nil => exact scanSingle_fails hc h
  | cons d cs =>
      simp only [scanNext] at h ⊢
      cases hs : doubleSymbol? c d with
      | some s => simp [hs, symbolReading] at h
      | none =>
          simp only [hs] at h
          dsimp only
          split at h
          case isTrue => cases h
          case isFalse hslash =>
            rw [if_neg hslash]
            exact scanSingle_fails hc h

theorem scanNext_quote (cs : List Char) : scanNext '"' cs = scanString cs := by
  cases cs with
  | nil => rfl
  | cons d cs => rfl

def Reading.errors (line : Nat) (r : Reading) : List (Nat × ScanFault) :=
  match r.item with
  | .faulty faults => faults.map (errorAt line)
  | _ => []

def Reading.Reported (r : Reading) (cs : List Char) (rs : List Report) : Prop :=
  Token.Reported cs r.taken r.rest r.newlines (fun line => r.errors line) rs

/-- An item without fault has no error to report. -/
theorem Reading.Accounts.reported {r : Reading} (h : r.Accounts cs)
    (hitem : ∀ faults, r.item ≠ .faulty faults) : r.Reported cs [] := by
  have herrors : (fun line => r.errors line) = fun _ => [] := funext fun line => by
    rw [Reading.errors]
    split
    case h_1 faults hfaults => exact absurd hfaults (hitem faults)
    case h_2 => rfl
  rw [Reading.Reported, herrors]
  exact .quiet h.taken h.newlines

theorem Reading.Fails.reported {r : Reading} {fault : ScanFault} (h : r.Fails cs fault) :
    r.Reported cs [⟨r.taken, fault⟩] := by
  have herrors : (fun line => r.errors line) = fun line => [errorAt line (0, fault)] :=
    funext fun line => by
      rw [Reading.errors, h.item]
      rfl
  rw [Reading.Reported, herrors, h.newlines]
  refine .single h.accounts.taken h.shown ?_
  rw [← h.accounts.newlines, h.newlines]
  simp [h.counted]

theorem scanString_reported (cs : List Char) :
    (scanString cs).Reported ('"' :: cs) ((stringReports cs).map (.behind ['"'])) := by
  have herrors : (fun line => (scanString cs).errors line) =
      fun line => (stringBody cs).faults.map (errorAt line) := funext fun line => by
    unfold scanString Reading.errors
    by_cases hfaults : (stringBody cs).faults = []
    · simp [hfaults, stringBody_closed cs hfaults]
    · simp [hfaults]
  have hquote : ['"'].count '\n' = 0 := rfl
  rw [Reading.Reported, herrors]
  exact Token.Reported.behind (stringBody_reported cs) hquote

theorem scanNext_reported (c : Char) (cs : List Char) :
    (scanNext c cs).Reported (c :: cs) (itemReports c cs) := by
  by_cases hclear : ∀ faults, (scanNext c cs).item ≠ .faulty faults
  · have hitem : itemReports c cs = [] := by
      rw [itemReports]
      split
      case h_1 faults hfaults => exact absurd hfaults (hclear faults)
      case h_2 => rfl
    rw [hitem]
    exact (scanNext_accounts fun faults hf => absurd hf (hclear faults)).reported hclear
  · obtain ⟨faults, hitem⟩ := Classical.not_forall_not.mp hclear
    by_cases hc : c = '"'
    · subst hc
      rw [itemReports, hitem, scanNext_quote]
      exact scanString_reported cs
    · obtain ⟨fault, hfails⟩ := scanNext_fails hc hitem
      obtain rfl : faults = [(0, fault)] := Item.faulty.inj (hitem.symm.trans hfails.item)
      rw [itemReports, hitem]
      simpa [hc] using hfails.reported

/-! ### Whole texts -/

theorem errors_scanFrom_cons (line : Nat) (c : Char) (cs : List Char) :
    (scanFrom (.ofNat line) (c :: cs)).errors = ((scanNext c cs).errors line).map cutError ++
      (scanFrom (.ofNat (line + (scanNext c cs).newlines)) (scanNext c cs).rest).errors := by
  rw [scanFrom, Reading.errors, UInt32.ofNat_add]
  cases (scanNext c cs).item with
  | blank => rfl
  | token kind literal => rfl
  | faulty faults =>
      simp [errorAt, cutError, Function.comp_def, UInt32.ofNat_add]

theorem scanFrom_reported (cs : List Char) : ∃ newlines errors,
    Reported cs cs [] newlines errors (reportsFrom cs) ∧
      ∀ line, (scanFrom (.ofNat line) cs).errors = (errors line).map cutError := by
  fun_induction reportsFrom cs with
  | case1 =>
      refine ⟨0, _, .quiet rfl rfl, fun line => ?_⟩
      rw [scanFrom]
      rfl
  | case2 c cs ih =>
      obtain ⟨newlines, errors, hmore, herrors⟩ := ih
      have hitem := scanNext_reported c cs
      have hwhole := hitem.append hmore
      rw [hitem.split] at hwhole
      refine ⟨_, _, hwhole, fun line => ?_⟩
      rw [errors_scanFrom_cons, herrors, List.map_append]

theorem scan_eq_error {source : String} {errors : List SyntaxError}
    (h : scan source = .error errors) : errors = (scanFrom 1 source.toList).errors := by
  unfold scan at h
  dsimp only at h
  split at h
  · cases h
  · exact (Except.error.inj h).symm

/-- The errors of a text as its reports.  Each is on the line of what has been read when it is
found, save for the newlines behind backslashes that have been reported up to it.  Lines have 32
bits. -/
structure ErrorsLocated (source : String) (errors : List SyntaxError) (rs : List Report) :
    Prop where
  faults : errors.map SyntaxError.fault = rs.map fun r => .scanning r.fault
  found : Found source.toList source.toList rs
  uncounted {i : Nat} {r : Report} : rs[i]? = some r →
    (rs.take (i + 1)).countP Report.uncounted ≤ r.read.count '\n'
  line {i : Nat} {e : SyntaxError} {r : Report} : errors[i]? = some e → rs[i]? = some r →
    e.line = .ofNat (1 + (r.read.count '\n' - (rs.take (i + 1)).countP Report.uncounted))
  ascending : 1 + newlines source < 2 ^ 32 → errors.Pairwise fun e e' => e.line ≤ e'.line

/-- **The errors of a text that is refused are its reports.**  Their lines never go back, as long as
32 bits can count the lines of the text.  An error is on the line of the newlines that have been
read when it is found, except that the scanner counts no newline behind a backslash in a string:
every one that has been reported, the error itself included, moves the line up by one. -/
theorem scan_errors_located {source : String} {errors : List SyntaxError}
    (h : scan source = .error errors) :
    ErrorsLocated source errors (reportsFrom source.toList) := by
  obtain rfl := scan_eq_error h
  obtain ⟨counted, es, hreported, herrors⟩ := scanFrom_reported source.toList
  have hlocated := hreported.located 1
  have hascending := hreported.ascending 1
  have hcut : (scanFrom 1 source.toList).errors = (es 1).map cutError := herrors 1
  have hlength : (es 1).length = (reportsFrom source.toList).length := by
    simpa using congrArg List.length hlocated.map_fault
  have hline : ∀ {i : Nat} {r : Report}, (reportsFrom source.toList)[i]? = some r →
      ∃ e, (es 1)[i]? = some e ∧ 1 ≤ e.1 ∧ e.1 +
        ((reportsFrom source.toList).take (i + 1)).countP Report.uncounted =
          1 + r.read.count '\n' := fun {i r} hr => by
    obtain ⟨hi, -⟩ := List.getElem?_eq_some_iff.mp hr
    have he : (es 1)[i]? = some (es 1)[i] := List.getElem?_eq_getElem (hlength ▸ hi)
    refine ⟨_, he, (hascending.within _ (List.getElem_mem _)).1, ?_⟩
    simpa using hlocated.line_eq he hr
  rw [hcut]
  exact {
    faults := by
      have hfaults := congrArg (List.map SyntaxFault.scanning) hlocated.map_fault
      rw [List.map_map, List.map_map] at hfaults
      rw [List.map_map]
      exact hfaults
    found := hreported.found
    uncounted := fun hr => by
      obtain ⟨e, -, hfirst, hsum⟩ := hline hr
      omega
    line := fun he hr => by
      obtain ⟨e, hes, hfirst, hsum⟩ := hline hr
      rw [List.getElem?_map, hes] at he
      obtain rfl := Option.some.inj he
      exact congrArg UInt32.ofNat (by omega)
    ascending := fun hfits => hascending.pairwise_cut (by
      have := hreported.counts
      rw [newlines] at hfits
      omega) }

/-- A string over two lines without an end, behind faults on two other lines. -/
def faultyLines : String := "! // text\n9223372036854775808 \"\\q\n"

theorem scan_errors_located_faulty_lines : ∃ errors, scan faultyLines = .error errors ∧
    errors.map SyntaxError.line = [1, 2, 2, 3] ∧
      ErrorsLocated faultyLines errors (reportsFrom faultyLines.toList) := by
  have hlines : (scanFrom 1 faultyLines.toList).errors.map SyntaxError.line = [1, 2, 2, 3] := by
    decide +kernel
  have hscan : scan faultyLines = .error (scanFrom 1 faultyLines.toList).errors := by
    cases herrors : (scanFrom 1 faultyLines.toList).errors with
    | nil => simp [herrors] at hlines
    | cons e es => simp [scan, herrors]
  exact ⟨_, hscan, hlines, scan_errors_located hscan⟩

/-- A string with a backslash at the end of its line. -/
def escapedNewline : String := "\"\\\n\""

/-- The newline behind a backslash has been read when its fault is reported, and is not counted. -/
theorem escaped_newline_is_not_counted : ¬ ∀ (source : String) (errors : List SyntaxError),
    scan source = .error errors → ∀ (i : Nat) (e : SyntaxError) (r : Report),
      errors[i]? = some e → (reportsFrom source.toList)[i]? = some r →
        e.line = .ofNat (1 + r.read.count '\n') := by
  intro hall
  have hscan : (match scan escapedNewline with | .error es => es | .ok _ => []) =
      [⟨1, .scanning (.unknownEscape '\n')⟩] := by decide +kernel
  have hreports : reportsFrom escapedNewline.toList =
      [⟨['"', '\\', '\n'], .unknownEscape '\n'⟩] := by decide +kernel
  cases hresult : scan escapedNewline with
  | ok ts =>
      rw [hresult] at hscan
      cases hscan
  | error errors =>
      rw [hresult] at hscan
      have hline := hall escapedNewline errors hresult 0 _ _
        (congrArg (·[0]?) hscan) (congrArg (·[0]?) hreports)
      cases hline

end Classlet.Token
