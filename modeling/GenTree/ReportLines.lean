import GenTree.PrintedTrees
import GenTree.ReportText

/-!
# The lines of a report

What `read_file` makes of each line that `finish_alg` writes: the header
(`readText_header`), the comments of a group (`readText_comments`) and its parts
(`readText_body`), which are collected before the group is taken in.

A comment that contains the word `IGNORED` sets the flag `ignored`.  Of the comments that
the program writes itself only one has the letter `I`.  But the first comment of the header
has the program arguments, and the end of the header does not reset the flag.

The reader trims each line and then looks at what is left: nothing, a comment, a separator,
or a part of a group, which it takes according to `read_state`.  So a line is described by
what the trimmed line is not (`Plain`), and a formula, which may be printed on several lines,
comes back as `rejoin` puts it together, not as it was printed.
-/

namespace GenTree

open Outcome TextLines

/-! ## What the lines are made of -/

theorem ignoredWord_eq : ignoredWord = ['I', 'G', 'N', 'O', 'R', 'E', 'D'] := rfl

theorem ignoredWord_ne : ignoredWord ≠ [] := by
  rw [ignoredWord_eq]
  exact List.cons_ne_nil _ _

theorem notMem_showInt_I (i : ℤ) : 'I' ∉ showInt i := notMem_showInt (by decide) (by decide) i

theorem notMem_showInt_endl (i : ℤ) : '\n' ∉ showInt i := notMem_showInt (by decide) (by decide) i

theorem notMem_toDigits_sixteen (n : ℕ) : 'I' ∉ Nat.toDigits 16 n ∧ '\n' ∉ Nat.toDigits 16 n := by
  have hdigit : ∀ k < 16, Nat.digitChar k ≠ 'I' ∧ Nat.digitChar k ≠ '\n' := by decide
  induction n using Nat.strong_induction_on with
  | _ n ih =>
      rw [Nat.toDigits_eq_if (by decide)]
      split
      · next hlt =>
          obtain ⟨hI, hn⟩ := hdigit n hlt
          simp [hI.symm, hn.symm]
      · next hge =>
          obtain ⟨hI, hn⟩ := hdigit (n % 16) (Nat.mod_lt _ (by decide))
          obtain ⟨ihI, ihn⟩ := ih (n / 16) (Nat.div_lt_self (by omega) (by decide))
          simp [ihI, ihn, hI.symm, hn.symm]

section Lines

variable (h : Header) (r : Report Str) (g : Group Str)

theorem Header.notMem_field {c : Char} (hshow : ∀ i, c ∉ showInt i) (hblank : c ≠ ' ') (width : ℕ)
    (i : ℤ) : c ∉ field width i := by
  unfold field List.leftpad
  simp [hshow i, hblank]

theorem Header.notMem_hashStr (p : ℕ × ℕ) : 'I' ∉ hashStr p ∧ '\n' ∉ hashStr p := by
  obtain ⟨hI, hn⟩ := notMem_toDigits_sixteen p.1
  obtain ⟨hI', hn'⟩ := notMem_toDigits_sixteen p.2
  unfold hashStr List.leftpad
  simp [hI, hn, hI', hn']

theorem hash_toList : "# ".toList = ['#', ' '] := by decide

/-- A comment without the letter `I`, hence without the word `IGNORED`, wherever the numbers
that are printed in it begin and end. -/
structure QuietComment (line : Str) : Prop where
  hash : ∃ l, line = '#' :: l
  noWord : 'I' ∉ line
  noEndl : '\n' ∉ line

theorem Header.quiet_seedLine : QuietComment h.seedLine := by
  have hseed : "# seed = ".toList = '#' :: " seed = ".toList := by decide
  unfold seedLine
  constructor
  · rw [hseed]
    simp only [List.cons_append]
    exact ⟨_, rfl⟩
  · simp only [List.mem_append, notMem_showInt_I, or_false]
    decide
  · simp only [List.mem_append, notMem_showInt_endl, or_false]
    decide

theorem Header.quiet_statusLine : QuietComment (h.statusLine r) := by
  have hI : ∀ width i, 'I' ∉ field width i := notMem_field notMem_showInt_I (by decide)
  have hn : ∀ width i, '\n' ∉ field width i := notMem_field notMem_showInt_endl (by decide)
  obtain ⟨hI', hn'⟩ := notMem_hashStr h.stateHash
  unfold statusLine
  constructor
  · rw [hash_toList]
    simp only [List.cons_append]
    exact ⟨_, rfl⟩
  · simp only [List.mem_append, hI, hI', or_false]
    decide
  · simp only [List.mem_append, hn, hn', or_false]
    decide

theorem Group.quiet_hitLine : QuietComment g.hitLine := by
  have hhit : "# M/H: ".toList = '#' :: " M/H: ".toList := by decide
  unfold hitLine
  constructor
  · rw [hhit]
    simp only [List.cons_append]
    exact ⟨_, rfl⟩
  · simp only [List.mem_append, notMem_showInt_I, or_false]
    decide
  · simp only [List.mem_append, notMem_showInt_endl, or_false]
    decide

theorem Group.quiet_rebuildLine : QuietComment g.rebuildLine := by
  have hrebuild : "# Last rebuild:   iter ".toList = '#' :: " Last rebuild:   iter ".toList := by
    decide
  unfold rebuildLine
  constructor
  · rw [hrebuild]
    simp only [List.cons_append]
    exact ⟨_, rfl⟩
  · simp only [List.mem_append, notMem_showInt_I, or_false]
    decide
  · simp only [List.mem_append, notMem_showInt_endl, or_false]
    decide

end Lines

/-! ## The text of a tree -/

/-- What the text of a tree is made of. -/
def treeChar (c : Char) : Bool := c.isDigit || c = ' ' || c = 'H' || c = 'M'

theorem treeChar_toDigits {n : ℕ} {c : Char} (h : c ∈ Nat.toDigits 10 n) : treeChar c = true := by
  unfold treeChar
  rw [Nat.isDigit_of_mem_toDigits (by decide) (by decide) h]
  rfl

theorem mem_shapeTexts {kids : List (DTree ℕ Bool)} {last : Bool} {c : Char}
    (h : c ∈ shapeTexts kids last) : ∃ k ∈ kids, ∃ last', c ∈ shapeText k last' := by
  induction kids generalizing last with
  | nil => cases h
  | cons k kids ih =>
      rw [shapeTexts, List.mem_append] at h
      rcases h with h | h
      · exact ⟨k, List.mem_cons_self .., last, h⟩
      · obtain ⟨k', hk', hc⟩ := ih h
        exact ⟨k', List.mem_cons_of_mem _ hk', hc⟩

theorem treeChar_shapeText (sh : DTree ℕ Bool) {last : Bool} {c : Char}
    (h : c ∈ shapeText sh last) : treeChar c = true := by
  induction sh generalizing last with
  | leaf b =>
      rw [shapeText, List.mem_singleton] at h
      subst h
      cases b <;> rfl
  | node x kids ih =>
      rw [shapeText, List.mem_append, List.mem_append, List.mem_cons] at h
      rcases h with h | h | rfl | h
      · have hblank : c = ' ' := by
          cases last with
          | true => exact List.mem_singleton.mp h
          | false => cases h
        subst hblank
        rfl
      · exact treeChar_toDigits h
      · rfl
      · obtain ⟨k, hk, last', hc⟩ := mem_shapeTexts h
        exact ih k hk hc

/-- The text of children ends as the text of a child does. -/
theorem getLast?_shapeTexts {kids : List (DTree ℕ Bool)} (hne : kids ≠ []) {last : Bool}
    (hkids : ∀ k ∈ kids, ∀ last, ∃ c, (shapeText k last).getLast? = some c ∧ isSpace c = false) :
    ∃ c, (shapeTexts kids last).getLast? = some c ∧ isSpace c = false := by
  induction kids generalizing last with
  | nil => exact absurd rfl hne
  | cons k kids ih =>
      rw [List.forall_mem_cons] at hkids
      rw [shapeTexts]
      cases kids with
      | nil =>
          rw [shapeTexts, List.append_nil]
          exact hkids.1 last
      | cons k' kids =>
          obtain ⟨c, hc, hblank⟩ := @ih (List.cons_ne_nil _ _) true hkids.2
          exact ⟨c, by rw [List.getLast?_append, hc, Option.some_or], hblank⟩

/-- The text of a tree ends in a letter. -/
theorem getLast?_shapeText {arity : ℕ → ℕ} {sh : DTree ℕ Bool} (h : sh.Shaped arity) (last : Bool) :
    ∃ c, (shapeText sh last).getLast? = some c ∧ isSpace c = false := by
  induction h generalizing last with
  | leaf b => cases b <;> exact ⟨_, rfl, by decide⟩
  | @node x kids hpos hlen _ ih =>
      have hne : kids ≠ [] := by
        rintro rfl
        rw [List.length_nil] at hlen
        omega
      obtain ⟨c, hc, hblank⟩ := @getLast?_shapeTexts kids hne false ih
      refine ⟨c, ?_, hblank⟩
      rw [shapeText, List.getLast?_append, List.getLast?_append, List.getLast?_cons, hc]
      rfl

/-- The text of a tree begins with a number or a letter. -/
theorem head?_shapeText (sh : DTree ℕ Bool) :
    ∃ c, (shapeText sh false).head? = some c ∧ isSpace c = false ∧ treeChar c = true := by
  cases sh with
  | leaf b => cases b <;> exact ⟨_, rfl, by decide, by decide⟩
  | node x kids =>
      obtain ⟨c, l, hl⟩ := List.exists_cons_of_ne_nil (Nat.toDigits_ne_nil : Nat.toDigits 10 x ≠ [])
      have hmem : c ∈ Nat.toDigits 10 x := by
        rw [hl]
        exact List.mem_cons_self ..
      refine ⟨c, ?_, ?_, treeChar_toDigits hmem⟩
      · rw [shapeText, hl]
        rfl
      · exact isSpace_of_isDigit (Nat.isDigit_of_mem_toDigits (by decide) (by decide) hmem)

/-! ## Reading line by line -/

section Reading

variable {Expr : Type} {dom : Domain} {z : Z3Text Expr}

theorem getlines_eq (cur text : Str) : getlines cur text = lines '\n' cur text := by
  induction text generalizing cur with
  | nil => rfl
  | cons c text ih => rw [getlines, lines, ih, ih]

/-- A text is read up to an end of line, then the rest of it. -/
theorem readText_append (st : ReadSt Expr) (text rest : Str) :
    readText dom z st (text ++ '\n' :: rest) =
      (getlines [] (text ++ ['\n'])).foldlM (ReadSt.readLine dom z) st >>= fun st =>
        readText dom z st rest := by
  unfold readText
  rw [getlines_eq, lines_append, List.foldlM_append, ← getlines_eq, ← getlines_eq]

theorem readText_line (st : ReadSt Expr) {line : Str} (h : '\n' ∉ line) (rest : Str) :
    readText dom z st (line ++ '\n' :: rest) =
      ReadSt.readLine dom z st line >>= fun st => readText dom z st rest := by
  rw [readText_append, getlines_eq, lines_line h, List.nil_append, List.foldlM_cons]
  simp only [List.foldlM_nil, bind_pure]

/-! ### Comments -/

/-- **A comment** is kept, and the word in it sets the flag. -/
theorem readLine_comment (st : ReadSt Expr) (l : Str) :
    ∃ comments, ReadSt.readLine dom z st ('#' :: l) = .ok { st with
      comments, ignored := st.ignored || decide (ignoredWord <:+: '#' :: l) } := by
  obtain ⟨l', hl'⟩ := @trim_cons _ isSpace _ (by decide : isSpace '#' = false) l
  have hfound : ignoredWord <:+: trim isSpace ('#' :: l) ↔ ignoredWord <:+: '#' :: l := by
    rw [ignoredWord_eq]
    exact infix_trim_iff (by decide) (by simp [isSpace]) _
  refine ⟨st.comments ++ [trim isSpace ('#' :: l)], ?_⟩
  unfold ReadSt.readLine
  simp only [hfound]
  rw [hl', if_neg (List.cons_ne_nil _ _), if_pos (show ('#' :: l').head? = some '#' from rfl)]

/-- A comment that begins with a blank.  The word is found in what follows the blank. -/
theorem readText_comment (st : ReadSt Expr) {l : Str} (hn : '\n' ∉ l) (rest : Str) :
    ∃ comments, readText dom z st (('#' :: ' ' :: l) ++ '\n' :: rest) = readText dom z { st with
      comments, ignored := st.ignored || decide (ignoredWord <:+: l) } rest := by
  obtain ⟨comments, hline⟩ := @readLine_comment _ dom z st (' ' :: l)
  have hfound : ignoredWord <:+: '#' :: ' ' :: l ↔ ignoredWord <:+: l := by
    let blank : Char → Bool := fun c => c = '#' || c = ' '
    have hword : ∀ c ∈ ignoredWord, blank c = false := by
      rw [ignoredWord_eq]
      simp [blank]
    rw [@infix_cons_blank _ blank _ ignoredWord_ne hword '#' rfl,
      @infix_cons_blank _ blank _ ignoredWord_ne hword ' ' rfl]
  have hn' : '\n' ∉ '#' :: ' ' :: l := by
    simp only [List.mem_cons, not_or]
    exact ⟨by decide, by decide, hn⟩
  exact ⟨comments, by rw [readText_line st hn', hline, ok_bind, decide_eq_decide.mpr hfound]⟩

/-- A comment without the letter `I` changes the comments only. -/
theorem QuietComment.readText {line : Str} (h : QuietComment line) (st : ReadSt Expr) (rest : Str) :
    ∃ comments, GenTree.readText dom z st (line ++ '\n' :: rest) =
      GenTree.readText dom z { st with comments } rest := by
  obtain ⟨⟨l, rfl⟩, hI, hn⟩ := h
  obtain ⟨comments, hline⟩ := @readLine_comment _ dom z st l
  have hword : ¬ignoredWord <:+: '#' :: l := by
    rw [ignoredWord_eq]
    exact fun hfound => hI (hfound.subset (List.mem_cons_self ..))
  refine ⟨comments, ?_⟩
  rw [readText_line st hn, hline, ok_bind, decide_eq_false hword, Bool.or_false]

/-! ### Separators -/

/-- The line at the end of a group. -/
theorem exists_equals : ∃ line, "======".toList = line ∧ '\n' ∉ line ∧
    ∀ st : ReadSt Expr, ReadSt.readLine dom z st line = st.readEquals dom z :=
  ⟨['=', '=', '=', '=', '=', '='], rfl, by decide, fun _ => rfl⟩

theorem readLine_dashes (st : ReadSt Expr) : ReadSt.readLine dom z st ['-'] = st.readDashes := rfl

/-! ### The header -/

/-- **The header** leaves the flag behind when an argument contains the word. -/
theorem readText_header (h : Header) (r : Report Str) (hargs : '\n' ∉ h.argLine) (st : ReadSt Expr)
    (hlocs : st.locs = []) (rest : Str) :
    ∃ comments globalComments, readText dom z st (h.text r ++ rest) = readText dom z { st with
      comments, globalComments, ignored := st.ignored || decide (ignoredWord <:+: h.argLine) }
        rest := by
  obtain ⟨equals, hequals, hendl, hread⟩ := @exists_equals _ dom z
  have htext : h.text r ++ rest = ('#' :: ' ' :: h.argLine) ++ '\n' ::
      (h.seedLine ++ '\n' :: (h.statusLine r ++ '\n' :: (equals ++ '\n' :: rest))) := by
    unfold Header.text
    rw [hash_toList, hequals]
    simp only [List.append_assoc, List.cons_append, List.nil_append]
  let flag := st.ignored || decide (ignoredWord <:+: h.argLine)
  obtain ⟨comments₁, hfirst⟩ := @readText_comment _ dom z st _ hargs
    (h.seedLine ++ '\n' :: (h.statusLine r ++ '\n' :: (equals ++ '\n' :: rest)))
  obtain ⟨comments₂, hsecond⟩ := @QuietComment.readText _ dom z _ h.quiet_seedLine
    { st with comments := comments₁, ignored := flag }
    (h.statusLine r ++ '\n' :: (equals ++ '\n' :: rest))
  obtain ⟨comments₃, hthird⟩ := @QuietComment.readText _ dom z _ (h.quiet_statusLine r)
    { st with comments := comments₂, ignored := flag } (equals ++ '\n' :: rest)
  rw [htext, hfirst, hsecond, hthird, readText_line _ hendl, hread]
  unfold ReadSt.readEquals
  rw [if_pos hlocs, ok_bind]
  exact ⟨_, _, rfl⟩

/-! ### The lines of a group -/

/-- A line that is neither a comment nor a separator.  A separator is `-` or `=`, as often as
one likes. -/
structure Plain (line : Str) : Prop where
  noHash : line.head? ≠ some '#'
  noDashes : isAll line '-' = false
  noEquals : isAll line '=' = false

/-- A line with a character that is in no separator, and with no `#` in front. -/
theorem Plain.of_mem {s : Str} {d : Char} (h : d ∈ s) (hdash : d ≠ '-') (hequals : d ≠ '=')
    (hhash : s.head? ≠ some '#') : Plain s :=
  ⟨hhash, isAll_eq_false h hdash, isAll_eq_false h hequals⟩

theorem readLine_body (st : ReadSt Expr) {line : Str} (hne : trim isSpace line ≠ [])
    (h : Plain (trim isSpace line)) :
    ReadSt.readLine dom z st line = st.readBody (trim isSpace line) := by
  unfold ReadSt.readLine
  simp only [if_neg hne, if_neg h.noHash, h.noDashes, h.noEquals, Bool.false_eq_true, if_false]

/-- A location name that can be told apart in its line: it is cut at commas and blanks, and
the line is a comment if its first name begins with `#`. -/
structure Token (s : Str) : Prop where
  ne : s ≠ []
  noBlank : ∀ c ∈ s, isSpace c = false
  noComma : ',' ∉ s
  noHash : s.head? ≠ some '#'

/-- **The names of a group.** -/
theorem readLine_names (st : ReadSt Expr) (hstate : st.readState = 0) {names : List Str}
    (hne : names ≠ []) (hnames : ∀ s ∈ names, Token s) :
    ReadSt.readLine dom z st (names.flatMap (· ++ [',', ' '])) =
      .ok { st with locs := st.locs ++ names } := by
  generalize hline : names.flatMap (· ++ [',', ' ']) = line
  have hcomma : ',' ∈ trim isSpace line := by
    rw [mem_trim (by decide), ← hline, List.mem_flatMap]
    obtain ⟨s, hs⟩ := List.exists_mem_of_ne_nil _ hne
    exact ⟨s, hs, by simp⟩
  have hhash : (trim isSpace line).head? ≠ some '#' := by
    obtain ⟨s, names, rfl⟩ := List.exists_cons_of_ne_nil hne
    have hs := hnames s (List.mem_cons_self ..)
    obtain ⟨c, s', rfl⟩ := List.exists_cons_of_ne_nil hs.ne
    obtain ⟨l', hl'⟩ := trim_cons (hs.noBlank c (List.mem_cons_self ..))
      (s' ++ [',', ' '] ++ names.flatMap (· ++ [',', ' ']))
    rw [← hline, List.flatMap_cons, List.cons_append, List.cons_append, hl']
    exact hs.noHash
  have hwords : words isSpace [] ((trim isSpace line).map fun c => if c = ',' then ' ' else c) =
      names := by
    have hkeep : ∀ c, isSpace c = true → isSpace (if c = ',' then ' ' else c) = true := by
      intro c hc
      split
      · rfl
      · exact hc
    have hmap : ∀ s ∈ names, (s ++ [',', ' ']).map (fun c => if c = ',' then ' ' else c) =
        s ++ ' ' :: [' '] := by
      intro s hs
      have hsame : s.map (fun c => if c = ',' then ' ' else c) = s := by
        conv_rhs => rw [← List.map_id s]
        refine List.map_congr_left fun c hc => if_neg ?_
        rintro rfl
        exact (hnames s hs).noComma hc
      rw [List.map_append, hsame]
      rfl
    rw [words_map_trim hkeep, ← hline, List.map_flatMap, List.flatMap_congr hmap]
    exact words_flatMap (fun s hs => (hnames s hs).ne) (fun s hs => (hnames s hs).noBlank) rfl
      (by simp [isSpace])
  rw [readLine_body st (List.ne_nil_of_mem hcomma)
    (.of_mem hcomma (by decide) (by decide) hhash)]
  unfold ReadSt.readBody
  simp only [hstate, hwords]

/-- What is kept of a line of a formula.  Empty lines are skipped before `read_state` is
looked at, so they leave no line end behind. -/
def joinLine (line : Str) : Str :=
  if trim isSpace line = [] then [] else trim isSpace line ++ ['\n']

/-- The text of a formula as it is put together again from its lines. -/
def rejoin (text : Str) : Str :=
  trim isSpace ((getlines [] (text ++ ['\n'])).flatMap joinLine)

/-- **The lines of a formula.** -/
theorem readLines_formula (st : ReadSt Expr) (hstate : st.readState = 1) {lines : List Str}
    (hlines : ∀ line ∈ lines, Plain (trim isSpace line)) :
    lines.foldlM (ReadSt.readLine dom z) st =
      .ok { st with sexpr := st.sexpr ++ lines.flatMap joinLine } := by
  induction lines generalizing st with
  | nil =>
      rw [List.foldlM_nil, List.flatMap_nil, List.append_nil]
      rfl
  | cons line lines ih =>
      rw [List.forall_mem_cons] at hlines
      have hline : ReadSt.readLine dom z st line =
          .ok { st with sexpr := st.sexpr ++ joinLine line } := by
        unfold joinLine
        split
        · next hnil =>
            unfold ReadSt.readLine
            simp only [if_pos hnil, List.append_nil]
        · next hne =>
            rw [readLine_body st hne hlines.1]
            unfold ReadSt.readBody
            simp only [hstate, List.append_assoc]
      have hrest := ih { st with sexpr := st.sexpr ++ joinLine line } hstate hlines.2
      rw [List.foldlM_cons, hline, ok_bind, hrest]
      simp only [List.flatMap_cons, List.append_assoc]

/-- **The line of a tree.** -/
theorem readLine_tree (st : ReadSt Expr) (hstate : st.readState = 2) (hnil : st.stree = [])
    {sh : DTree ℕ Bool} (hsh : sh.Shaped dom.nValues) :
    ReadSt.readLine dom z st (shapeText sh false) =
      .ok { st with stree := shapeText sh false } := by
  obtain ⟨c, hhead, hc, htree⟩ := head?_shapeText sh
  obtain ⟨c', hlast, hc'⟩ := getLast?_shapeText hsh false
  have htrim : trim isSpace (shapeText sh false) = shapeText sh false := by
    apply trim_eq_self
    · intro a ha
      rw [hhead, Option.mem_some_iff] at ha
      rwa [← ha]
    · intro a ha
      rw [hlast, Option.mem_some_iff] at ha
      rwa [← ha]
  have hne : ∀ d, treeChar d = false → c ≠ d := by
    rintro d hd rfl
    rw [hd] at htree
    cases htree
  have hmem : c ∈ shapeText sh false := List.mem_of_head? hhead
  have hplain : Plain (shapeText sh false) := by
    refine .of_mem hmem (hne '-' (by decide)) (hne '=' (by decide)) ?_
    rw [hhead]
    intro heq
    exact hne '#' (by decide) (Option.some.inj heq)
  rw [readLine_body st (by rw [htrim]; exact List.ne_nil_of_mem hmem) (by rwa [htrim]), htrim]
  unfold ReadSt.readBody
  simp only [hstate, check_pos hnil, ok_bind]

/-! ### One group -/

/-- What is printed behind the comments of a group: its names, the formula that `finish_alg`
prints in the end, and the text of the tree. -/
def Group.body (z : Z3Text Expr) (expensiveSimplify : Bool) (g : Group Str) : Str :=
  g.namesLine ++ '\n' :: ('-' :: '\n' ::
    (z.print (g.finalExpr z expensiveSimplify) ++ '\n' :: ('-' :: '\n' ::
      (g.tree ++ '\n' :: ("======".toList ++ ['\n'])))))

/-- **The comments of a group** set the flag if the group is ignored. -/
theorem readText_comments (g : Group Str) (expensiveSimplify : Bool) (st : ReadSt Expr)
    (rest : Str) : ∃ comments, readText dom z st (g.text z expensiveSimplify ++ rest) =
      readText dom z { st with comments, ignored := st.ignored || g.ignored }
        (g.body z expensiveSimplify ++ rest) := by
  generalize hbody : g.body z expensiveSimplify ++ rest = body
  have htext : g.text z expensiveSimplify ++ rest =
      (if g.ignored then ('#' :: ' ' :: ignoredWord) ++ ['\n'] else []) ++
        (g.hitLine ++ '\n' :: (g.rebuildLine ++ '\n' :: body)) := by
    have hignored : "# IGNORED".toList = '#' :: ' ' :: ignoredWord := by decide
    rw [← hbody]
    unfold Group.text Group.body
    rw [hignored]
    simp only [List.append_assoc, List.cons_append]
  have hflag : ∃ comments, readText dom z st (g.text z expensiveSimplify ++ rest) =
      readText dom z { st with comments, ignored := st.ignored || g.ignored }
        (g.hitLine ++ '\n' :: (g.rebuildLine ++ '\n' :: body)) := by
    rw [htext]
    cases g.ignored with
    | false => exact ⟨st.comments, by simp⟩
    | true =>
        have hn : '\n' ∉ ignoredWord := by decide
        obtain ⟨comments, hcomment⟩ := @readText_comment _ dom z st _ hn
          (g.hitLine ++ '\n' :: (g.rebuildLine ++ '\n' :: body))
        rw [decide_eq_true List.infix_rfl] at hcomment
        exact ⟨comments, by rw [if_pos rfl, List.append_assoc, List.singleton_append, hcomment]⟩
  obtain ⟨comments₁, hfirst⟩ := hflag
  obtain ⟨comments₂, hsecond⟩ := @QuietComment.readText _ dom z _ g.quiet_hitLine
    { st with comments := comments₁, ignored := st.ignored || g.ignored }
    (g.rebuildLine ++ '\n' :: body)
  obtain ⟨comments₃, hthird⟩ := @QuietComment.readText _ dom z _ g.quiet_rebuildLine
    { st with comments := comments₂, ignored := st.ignored || g.ignored } body
  exact ⟨comments₃, by rw [hfirst, hsecond, hthird]⟩

/-- The reader is between two groups: nothing has been collected.  The flag `ignored` and the
comments are not part of this, as they are not when the header ends. -/
structure ReadSt.Ready (st : ReadSt Expr) : Prop where
  readState : st.readState = 0
  locs : st.locs = []
  sexpr : st.sexpr = []
  stree : st.stree = []

/-- **The parts of a group** are collected before the group is taken in. -/
theorem readText_body {st : ReadSt Expr} (hst : st.Ready) {g : Group Str} (hne : g.names ≠ [])
    (hnames : ∀ s ∈ g.names, Token s) {expensiveSimplify : Bool}
    (hlines : ∀ line ∈ getlines [] (z.print (g.finalExpr z expensiveSimplify) ++ ['\n']),
      Plain (trim isSpace line))
    (hsexpr : rejoin (z.print (g.finalExpr z expensiveSimplify)) ≠ []) {sh : DTree ℕ Bool}
    (hsh : sh.Shaped dom.nValues) (htree : g.tree = shapeText sh false) (rest : Str) :
    readText dom z st (g.body z expensiveSimplify ++ rest) =
      ReadSt.readEquals dom z { st with
        readState := 2, locs := g.names, stree := g.tree
        sexpr := rejoin (z.print (g.finalExpr z expensiveSimplify)) } >>= fun st =>
          readText dom z st rest := by
  obtain ⟨hstate, hlocs, hsexpr₀, hstree⟩ := hst
  obtain ⟨equals, hequals, hendl, hread⟩ := @exists_equals _ dom z
  have hdash : '\n' ∉ ['-'] := by decide
  have hnamesn : '\n' ∉ g.namesLine := by
    unfold Group.namesLine
    intro hmem
    obtain ⟨s, hs, hin⟩ := List.mem_flatMap.mp hmem
    rcases List.mem_append.mp hin with hin | hin
    · have hblank := (hnames s hs).noBlank _ hin
      cases hblank
    · revert hin
      decide
  have htreen : '\n' ∉ g.tree := by
    rw [htree]
    intro hmem
    have hchar := treeChar_shapeText sh hmem
    cases hchar
  generalize hprint : z.print (g.finalExpr z expensiveSimplify) = text at hlines hsexpr ⊢
  have htext : g.body z expensiveSimplify ++ rest = g.namesLine ++ '\n' :: (['-'] ++ '\n' ::
      (text ++ '\n' :: (['-'] ++ '\n' :: (g.tree ++ '\n' :: (equals ++ '\n' :: rest))))) := by
    unfold Group.body
    rw [hprint, hequals]
    simp only [List.append_assoc, List.cons_append, List.nil_append]
  have hfirst : ReadSt.readLine dom z st g.namesLine = .ok { st with locs := g.names } := by
    unfold Group.namesLine
    rw [readLine_names st hstate hne hnames, hlocs, List.nil_append]
  rw [htext, readText_line st hnamesn, hfirst, ok_bind, readText_line _ hdash, readLine_dashes]
  unfold ReadSt.readDashes
  simp only [hstate, check_pos hne, ok_bind]
  rw [readText_append, readLines_formula _ rfl hlines, ok_bind, readText_line _ hdash,
    readLine_dashes]
  unfold ReadSt.readDashes
  simp only [hsexpr₀, List.nil_append]
  have hjoined : trim isSpace ((getlines [] (text ++ ['\n'])).flatMap joinLine) = rejoin text := rfl
  have hlast := @readLine_tree _ dom z
    { st with readState := 2, locs := g.names, sexpr := rejoin text } rfl hstree _ hsh
  rw [← htree] at hlast
  rw [hjoined, check_pos hsexpr, ok_bind, ok_bind, readText_line _ htreen, hlast, ok_bind,
    readText_line _ hendl, hread]

end Reading

end GenTree
