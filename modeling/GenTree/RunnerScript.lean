import GenTree.Library.InputStream
import GenTree.ReportText

/-!
# The arguments in a runner script

A line of a runner script is a command and its arguments.  An argument may be
enclosed in single quotes.  `readargs` reads a word first, and if the word begins
with a quote it reads on to the next quote.  It does not look whether the closing
quote was in the word already.

So an argument in quotes is read right only if the word ends inside it, that is if
it has white space in it (`readargsLoop_iff`).
-/

namespace GenTree

open Outcome InputStream TextLines

/-! ## Reading arguments -/

/-- `procval`: the variables of the script are replaced by their values. -/
def procval (varmap : List (Str × Str)) (res : Str) : Str :=
  varmap.foldl (fun res p => Z3Text.replaceAll res ('{' :: (p.1 ++ ['}'])) p.2) res

/-- One pass of the loop in `readargs` up to the `trim`: the entry that is read. -/
def readEntry (ss : Stream Char) : Option Str × Stream Char :=
  match (ss.skip isSpace).word isSpace with
  | (none, ss) => (none, ss)
  | (some entry, ss) =>
      if entry.head? = some '\'' then
        let (cont, ss) := ss.getline '\''
        (some (entry.tail ++ cont.getD []), ss)
      else (some entry, ss)

/-- The loop of `readargs`. -/
def readargsLoop (varmap : List (Str × Str)) : ℕ → Stream Char → Except Abort (List Str)
  | 0, _ => .error .outOfFuel
  | fuel + 1, ss =>
      match readEntry ss with
      | (none, _) => .ok []
      | (some entry, ss) =>
          let entry := trim isSpace entry
          if entry = [] then readargsLoop varmap fuel ss
          else do
            let res ← readargsLoop varmap fuel ss
            .ok (procval varmap entry :: res)

/-- `readargs`. -/
def readargs (varmap : List (Str × Str)) (ss : Stream Char) : Except Abort (List Str) :=
  readargsLoop varmap (ss.rest.length + 1) ss

/-- `GCovRunner::parse` of a line with a command that takes arguments: the command
and the arguments. -/
def parseArgs (varmap : List (Str × Str)) (line : Str) : Except Abort (Str × List Str) := do
  let ss : Stream Char := { rest := trim isSpace line }
  let (cmd, ss) := ss.word isSpace
  let args ← readargs varmap ss
  .ok (cmd.getD [], args)

/-! ## Written arguments -/

/-- An argument as it is written in a script: blanks, and the text, in quotes or
not. -/
structure WrittenArg where
  gap : Str
  quoted : Bool
  text : Str

namespace WrittenArg

/-- What stands between the blanks. -/
def body (a : WrittenArg) : Str := if a.quoted then '\'' :: (a.text ++ ['\'']) else a.text

/-- What is written. -/
def line (a : WrittenArg) : Str := a.gap ++ a.body

/-- The arguments that may be written: with blanks in front, without quotes and
braces, without white space at the ends, and in quotes if there is white space
inside. -/
structure Ok (a : WrittenArg) : Prop where
  gap_ne : a.gap ≠ []
  gap_blank : ∀ c ∈ a.gap, isSpace c = true
  ne : a.text ≠ []
  noQuote : '\'' ∉ a.text
  noBrace : '{' ∉ a.text
  head : ∀ c ∈ a.text.head?, isSpace c = false
  last : ∀ c ∈ a.text.getLast?, isSpace c = false
  bare : a.quoted = false → ∀ c ∈ a.text, isSpace c = false

/-- White space inside. -/
def Spaced (a : WrittenArg) : Prop := ∃ c ∈ a.text, isSpace c = true

end WrittenArg

/-! ## One argument -/

theorem replaceFrom_of_notMem {src dst s : Str} {b : Char} (hb : b ∈ src.head?) (h : b ∉ s) :
    Z3Text.replaceFrom src dst 0 s = s := by
  induction s with
  | nil => rfl
  | cons c s ih =>
    rw [List.mem_cons, not_or] at h
    cases src with
    | nil => cases hb
    | cons a src =>
      obtain rfl : a = b := by simpa using hb
      rw [Z3Text.replaceFrom, if_neg, ih h.2]
      simp [h.1]

/-- A text without a brace has no variable in it. -/
theorem procval_eq_self {varmap : List (Str × Str)} {s : Str} (h : '{' ∉ s) :
    procval varmap s = s := by
  unfold procval
  induction varmap with
  | nil => rfl
  | cons p varmap ih =>
    rw [List.foldl_cons, Z3Text.replaceAll, if_neg (List.cons_ne_nil _ _),
      replaceFrom_of_notMem (by simp) h, ih]

theorem isSpace_quote : isSpace '\'' = false := by simp [isSpace]

/-- A text splits at its first white space. -/
theorem exists_first_space {s : Str} (h : ∃ c ∈ s, isSpace c = true) :
    ∃ w b more, s = w ++ b :: more ∧ (∀ c ∈ w, isSpace c = false) ∧ isSpace b = true := by
  induction s with
  | nil =>
    obtain ⟨c, hc, -⟩ := h
    cases hc
  | cons c s ih =>
    cases hc : isSpace c with
    | true => exact ⟨[], c, s, rfl, by simp, hc⟩
    | false =>
      rw [List.exists_mem_cons_iff, hc] at h
      obtain ⟨w, b, more, rfl, hw, hb⟩ := ih (h.resolve_left Bool.false_ne_true)
      exact ⟨c :: w, b, more, rfl, List.forall_mem_cons.mpr ⟨hc, hw⟩, hb⟩

section Entry

variable {ss : Stream Char} {a : WrittenArg} {rest : Str}

/-- A bare argument is read. -/
theorem readEntry_bare (ha : a.Ok) (hbare : a.quoted = false) (hss : ss.At (a.line ++ rest))
    (hrest : ∀ c ∈ rest.head?, isSpace c = true) :
    readEntry ss = (some a.text, Stream.leave rest) := by
  have hline : a.line = a.gap ++ a.text := by simp [WrittenArg.line, WrittenArg.body, hbare]
  rw [hline] at hss
  have hquote : a.text.head? ≠ some '\'' := fun h => ha.noQuote (List.mem_of_mem_head? h)
  unfold readEntry
  rw [hss.word_skip ha.gap_blank ha.ne (ha.bare hbare) hrest]
  dsimp only
  rw [if_neg hquote]

/-- **An argument in quotes with white space inside is read.**  The word that is
read first ends at the white space, so the closing quote is the next one. -/
theorem readEntry_spaced (ha : a.Ok) (hquoted : a.quoted = true) (hspaced : a.Spaced)
    (hss : ss.At (a.line ++ rest)) :
    readEntry ss = (some a.text, { rest }) := by
  obtain ⟨w, b, more, htext, hw, hb⟩ := exists_first_space hspaced
  have hline : a.line ++ rest = a.gap ++ ('\'' :: w) ++ (b :: more ++ '\'' :: rest) := by
    simp [WrittenArg.line, WrittenArg.body, hquoted, htext]
  have hnoQuote : '\'' ∉ b :: more := fun h =>
    ha.noQuote (by rw [htext]; exact List.mem_append_right _ h)
  rw [hline] at hss
  have hword : ∀ c ∈ '\'' :: w, isSpace c = false :=
    List.forall_mem_cons.mpr ⟨isSpace_quote, hw⟩
  unfold readEntry
  rw [hss.word_skip ha.gap_blank (List.cons_ne_nil _ _) hword (by simpa using hb)]
  dsimp only
  rw [List.head?_cons, if_pos rfl, (Stream.at_leave _).getline_sep hnoQuote]
  simp [htext]

/-- **An argument in quotes without white space swallows what follows.**  Its
closing quote becomes a part of what is read. -/
theorem readEntry_unspaced (ha : a.Ok) (hquoted : a.quoted = true) (hspaced : ¬ a.Spaced)
    (hss : ss.At (a.line ++ rest)) (hrest : ∀ c ∈ rest.head?, isSpace c = true) :
    ∃ entry ss', readEntry ss = (some entry, ss') ∧ '\'' ∈ entry := by
  have hnone : ∀ c ∈ a.text, isSpace c = false := fun c hc => by
    by_contra h
    exact hspaced ⟨c, hc, by simpa using h⟩
  have hline : a.line ++ rest = a.gap ++ ('\'' :: (a.text ++ ['\''])) ++ rest := by
    simp [WrittenArg.line, WrittenArg.body, hquoted]
  rw [hline] at hss
  have hword : ∀ c ∈ '\'' :: (a.text ++ ['\'']), isSpace c = false := by
    intro c hc
    simp only [List.mem_cons, List.mem_append, List.not_mem_nil, or_false] at hc
    rcases hc with rfl | hc | rfl
    · exact isSpace_quote
    · exact hnone c hc
    · exact isSpace_quote
  unfold readEntry
  rw [hss.word_skip ha.gap_blank (List.cons_ne_nil _ _) hword hrest]
  dsimp only
  rw [List.head?_cons, if_pos rfl]
  exact ⟨_, _, rfl, by simp⟩

/-- An entry takes something away from the line. -/
theorem length_readEntry_lt {entry : Str} {ss' : Stream Char} (h : readEntry ss = (some entry, ss')) :
    ss'.rest.length < ss.rest.length := by
  unfold readEntry at h
  split at h
  · cases h
  · next word ss₁ hword =>
      have hlt : ss₁.rest.length < ss.rest.length :=
        (Stream.length_word_lt hword).trans_le Stream.length_skip_le
      split at h
      · rw [Prod.mk.injEq] at h
        rw [← h.2]
        exact Stream.length_getline_le.trans_lt hlt
      · rw [Prod.mk.injEq] at h
        rwa [← h.2]

/-- What is in an entry stood in the line. -/
theorem mem_readEntry {entry : Str} {ss' : Stream Char} (h : readEntry ss = (some entry, ss'))
    {c : Char} (hc : c ∈ entry) : c ∈ ss.rest := by
  unfold readEntry at h
  split at h
  · cases h
  · next word ss₁ hword =>
      have hmem : ∀ {x}, x ∈ word ∨ x ∈ ss₁.rest → x ∈ ss.rest := fun hx =>
        Stream.mem_skip (Stream.mem_word hword hx)
      split at h
      · rw [Prod.mk.injEq, Option.some.injEq] at h
        rw [← h.1, List.mem_append] at hc
        rcases hc with hc | hc
        · exact hmem (.inl (List.mem_of_mem_tail hc))
        · cases hget : ss₁.getline '\'' with
          | mk cont ss₂ =>
            rw [hget] at hc
            cases cont with
            | none => cases hc
            | some cont => exact hmem (.inr (Stream.mem_getline hget hc))
      · rw [Prod.mk.injEq, Option.some.injEq] at h
        exact hmem (.inl (h.1 ▸ hc))

end Entry

/-! ## The loop -/

section Loop

variable {varmap : List (Str × Str)} {ss : Stream Char} {fuel : ℕ}

/-- The loop comes to an end. -/
theorem readargsLoop_ok (varmap : List (Str × Str)) (h : ss.rest.length < fuel) :
    ∃ res, readargsLoop varmap fuel ss = .ok res := by
  induction fuel generalizing ss with
  | zero => exact absurd h (Nat.not_lt_zero _)
  | succ fuel ih =>
    unfold readargsLoop
    split
    · exact ⟨[], rfl⟩
    · next entry ss' hentry =>
        have hlt := length_readEntry_lt hentry
        obtain ⟨res, hres⟩ := ih (show ss'.rest.length < fuel by omega)
        dsimp only
        split
        · exact ⟨res, hres⟩
        · rw [hres]
          exact ⟨_, rfl⟩

/-- An argument that is read is the first of the result. -/
theorem readargsLoop_cons (varmap : List (Str × Str)) {entry : Str} {ss' : Stream Char} (h : readEntry ss = (some entry, ss'))
    (hne : trim isSpace entry ≠ []) (hbrace : '{' ∉ entry) (hfuel : ss.rest.length < fuel + 1) :
    ∃ res, readargsLoop varmap fuel ss' = .ok res ∧
      readargsLoop varmap (fuel + 1) ss = .ok (trim isSpace entry :: res) := by
  have hlt := length_readEntry_lt h
  obtain ⟨res, hres⟩ := readargsLoop_ok varmap (show ss'.rest.length < fuel by omega)
  have hproc : procval varmap (trim isSpace entry) = trim isSpace entry :=
    procval_eq_self fun hmem => hbrace ((mem_trim (by simp [isSpace])).mp hmem)
  refine ⟨res, hres, ?_⟩
  rw [readargsLoop, h]
  dsimp only
  rw [if_neg hne, hres, hproc]
  rfl

theorem WrittenArg.Ok.trim_text {a : WrittenArg} (ha : a.Ok) : trim isSpace a.text = a.text :=
  trim_eq_self ha.head ha.last

theorem notMem_brace {as : List WrittenArg} (has : ∀ a ∈ as, a.Ok) :
    '{' ∉ as.flatMap WrittenArg.line := by
  intro hmem
  obtain ⟨a, ha, hmem⟩ := List.mem_flatMap.mp hmem
  have hok := has a ha
  rw [WrittenArg.line, List.mem_append] at hmem
  rcases hmem with hgap | hbody
  · have hblank := hok.gap_blank _ hgap
    simp [isSpace] at hblank
  · unfold WrittenArg.body at hbody
    split at hbody
    · exact hok.noBrace (by simpa using hbody)
    · exact hok.noBrace hbody

theorem head_flatMap_line {as : List WrittenArg} (has : ∀ a ∈ as, a.Ok) :
    ∀ c ∈ (as.flatMap WrittenArg.line).head?, isSpace c = true := by
  intro c hc
  cases as with
  | nil => cases hc
  | cons a as =>
    have hok := has a List.mem_cons_self
    obtain ⟨b, gap, hgap⟩ := List.exists_cons_of_ne_nil hok.gap_ne
    rw [List.flatMap_cons, WrittenArg.line, hgap] at hc
    obtain rfl : b = c := by simpa using hc
    exact hok.gap_blank b (by rw [hgap]; exact List.mem_cons_self)

/-- **The whole line.**  The loop returns the arguments exactly when every one in
quotes has white space inside. -/
theorem readargsLoop_iff {as : List WrittenArg} (has : ∀ a ∈ as, a.Ok)
    (hss : ss.At (as.flatMap WrittenArg.line)) (hfuel : ss.rest.length < fuel) :
    readargsLoop varmap fuel ss = .ok (as.map WrittenArg.text) ↔
      ∀ a ∈ as, a.quoted = true → a.Spaced := by
  induction as generalizing ss fuel with
  | nil =>
    obtain ⟨fuel, rfl⟩ := Nat.exists_eq_succ_of_ne_zero (Nat.ne_zero_of_lt hfuel)
    have hentry : (readEntry ss).1 = none := by
      have hnone : ((ss.skip isSpace).word isSpace).1 = none := hss.word_none (by simp)
      unfold readEntry
      split
      · rfl
      · next heq => rw [heq] at hnone; cases hnone
    rw [readargsLoop]
    split
    · simp
    · next heq => rw [heq] at hentry; cases hentry
  | cons a as ih =>
    obtain ⟨fuel, rfl⟩ := Nat.exists_eq_succ_of_ne_zero (Nat.ne_zero_of_lt hfuel)
    rw [List.forall_mem_cons] at has ⊢
    obtain ⟨ha, has⟩ := has
    rw [List.flatMap_cons] at hss
    have hrest := head_flatMap_line has
    -- an argument that is read leaves the others to be read
    have hread : ∀ ss', readEntry ss = (some a.text, ss') →
        ss'.At (as.flatMap WrittenArg.line) → (a.quoted = true → a.Spaced) →
        (readargsLoop varmap (fuel + 1) ss = .ok ((a :: as).map WrittenArg.text) ↔
          (a.quoted = true → a.Spaced) ∧ ∀ a ∈ as, a.quoted = true → a.Spaced) := by
      intro ss' hentry hss' hcase
      have hlt := length_readEntry_lt hentry
      obtain ⟨res, hres, hloop⟩ := readargsLoop_cons varmap hentry
        (by rw [ha.trim_text]; exact ha.ne) ha.noBrace hfuel
      rw [hloop, ha.trim_text, List.map_cons, and_iff_right hcase,
        ← ih has hss' (show ss'.rest.length < fuel by omega), hres]
      simp
    rcases Bool.eq_false_or_eq_true a.quoted with hquoted | hquoted
    · by_cases hspaced : a.Spaced
      · exact hread _ (readEntry_spaced ha hquoted hspaced hss) (Stream.at_mk _) fun _ => hspaced
      · obtain ⟨entry, ss', hentry, hmem⟩ := readEntry_unspaced ha hquoted hspaced hss hrest
        have hmem' : '\'' ∈ trim isSpace entry := (mem_trim isSpace_quote).mpr hmem
        have hbrace : '{' ∉ entry := fun h => by
          have hin := mem_readEntry hentry h
          rw [hss.rest_eq, ← List.flatMap_cons] at hin
          exact notMem_brace (List.forall_mem_cons.mpr ⟨ha, has⟩) hin
        obtain ⟨res, -, hloop⟩ := readargsLoop_cons varmap hentry
          (List.ne_nil_of_mem hmem') hbrace hfuel
        refine ⟨fun h => ?_, fun h => absurd (h.1 hquoted) hspaced⟩
        rw [hloop, Except.ok.injEq, List.map_cons, List.cons.injEq] at h
        exact absurd (h.1 ▸ hmem') ha.noQuote
    · exact hread _ (readEntry_bare ha hquoted hss hrest) (Stream.at_leave _)
        fun h => absurd (hquoted.symm.trans h) Bool.false_ne_true

end Loop

/-! ## The line of a command -/

theorem WrittenArg.Ok.body_getLast {a : WrittenArg} (ha : a.Ok) :
    ∃ c, a.body.getLast? = some c ∧ isSpace c = false := by
  unfold WrittenArg.body
  split
  · refine ⟨'\'', ?_, isSpace_quote⟩
    rw [← List.cons_append, List.getLast?_concat]
  · have hlast := List.getLast?_eq_getLast_of_ne_nil ha.ne
    exact ⟨_, hlast, ha.last _ hlast⟩

/-- A command line does not end with white space. -/
theorem commandLine_getLast {cmd : Str} (hcmd : ∀ c ∈ cmd, isSpace c = false)
    {as : List WrittenArg} (has : ∀ a ∈ as, a.Ok) :
    ∀ c ∈ (cmd ++ as.flatMap WrittenArg.line).getLast?, isSpace c = false := by
  intro c hc
  induction as using List.reverseRecOn with
  | nil =>
    rw [List.flatMap_nil, List.append_nil] at hc
    exact hcmd c (List.mem_of_getLast? hc)
  | append_singleton as a =>
    obtain ⟨b, hlast, hb⟩ := (has a (by simp)).body_getLast
    have hend : (cmd ++ (as ++ [a]).flatMap WrittenArg.line).getLast? = some b := by
      rw [List.flatMap_append, List.flatMap_singleton, WrittenArg.line, ← List.append_assoc,
        ← List.append_assoc, List.getLast?_append, hlast]
      rfl
    rw [hend] at hc
    obtain rfl := Option.some.inj hc
    exact hb

/-- **When the arguments are read right.**  The arguments of a command, each
written bare or in quotes, are read as they are written exactly when every one in
quotes has white space inside. -/
theorem parseArgs_iff (varmap : List (Str × Str)) {cmd : Str} (hne : cmd ≠ [])
    (hcmd : ∀ c ∈ cmd, isSpace c = false) {as : List WrittenArg} (has : ∀ a ∈ as, a.Ok) :
    parseArgs varmap (cmd ++ as.flatMap WrittenArg.line) = .ok (cmd, as.map WrittenArg.text) ↔
      ∀ a ∈ as, a.quoted = true → a.Spaced := by
  have hhead : ∀ c ∈ (cmd ++ as.flatMap WrittenArg.line).head?, isSpace c = false := by
    intro c hc
    obtain ⟨b, cmd', rfl⟩ := List.exists_cons_of_ne_nil hne
    obtain rfl : b = c := by simpa using hc
    exact hcmd b List.mem_cons_self
  have hword : ({ rest := cmd ++ as.flatMap WrittenArg.line } : Stream Char).word isSpace =
      (some cmd, Stream.leave (as.flatMap WrittenArg.line)) :=
    @Stream.At.word_eq _ _ _ [] cmd _ (Stream.at_mk _) (by simp) hne hcmd (head_flatMap_line has)
  unfold parseArgs
  rw [trim_eq_self hhead (commandLine_getLast hcmd has)]
  dsimp only
  rw [hword]
  dsimp only
  rw [readargs, ← readargsLoop_iff has (Stream.at_leave _) (Nat.lt_succ_self _)]
  obtain ⟨res, hres⟩ := readargsLoop_ok varmap
    (Nat.lt_succ_self (Stream.leave (as.flatMap WrittenArg.line)).rest.length)
  rw [hres]
  simp

/-- A bare argument and one with white space inside. -/
theorem parseArgs_iff_date :
    parseArgs [] ['r', 'u', 'n', ' ', '-', 'd', ' ', '\'', '1', ' ', '2', '\''] =
      .ok (['r', 'u', 'n'], [['-', 'd'], ['1', ' ', '2']]) := by
  refine (@parseArgs_iff [] ['r', 'u', 'n'] (List.cons_ne_nil _ _) (by simp [isSpace])
    [⟨[' '], false, ['-', 'd']⟩, ⟨[' '], true, ['1', ' ', '2']⟩] ?_).mpr ?_
  · intro a ha
    simp only [List.mem_cons, List.not_mem_nil, or_false] at ha
    rcases ha with rfl | rfl <;> constructor <;> simp [isSpace]
  · simp [WrittenArg.Spaced, isSpace]

/-- An argument in quotes without white space inside is not read as it is
written. -/
theorem parseArgs_swallows :
    ¬ ∀ (cmd : Str) (as : List WrittenArg), cmd ≠ [] → (∀ c ∈ cmd, isSpace c = false) →
      (∀ a ∈ as, a.Ok) →
      parseArgs [] (cmd ++ as.flatMap WrittenArg.line) = .ok (cmd, as.map WrittenArg.text) := by
  intro hall
  have h := hall ['r', 'u', 'n'] [⟨[' '], true, ['a']⟩, ⟨[' '], false, ['b']⟩]
    (List.cons_ne_nil _ _) (by simp [isSpace]) (by
      intro a ha
      simp only [List.mem_cons, List.not_mem_nil, or_false] at ha
      rcases ha with rfl | rfl <;> constructor <;> simp [isSpace])
  have hread : parseArgs [] ['r', 'u', 'n', ' ', '\'', 'a', '\'', ' ', 'b'] =
      .ok (['r', 'u', 'n'], [['a', '\'', ' ', 'b']]) := rfl
  cases hread.symm.trans h

end GenTree
