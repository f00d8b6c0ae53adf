import GenTree.ReportRoundTrip

/-!
# The status line of a report

The third line of a report has the numbers of the run, in columns.  `run_analyze_2`
finds it as the third of the global comments that `read_file` has collected, splits it
at every run of blanks and bars, and takes the numbers by their positions.

* `words_statusLine` — the fields of the line as it is written.
* `readFile_comments` — the line is the third global comment of every file that begins
  with a header, whatever follows.
* `readParams_eq` — every number is read back under its own name.

The numbers are padded to columns, so a field is what stands between two runs of blanks and
bars; that a number contains neither is all that is used of it (`words_field`).
-/

namespace GenTree

open Outcome TextLines

namespace StatusLine

/-! ## The code -/

/-- Why the numbers are not read. -/
inductive ParamFault
  /-- `gcmt.at(2)` or `params.at(pos)`. -/
  | outOfRange
  /-- `boost::bad_lexical_cast`. -/
  | badLexicalCast
  deriving DecidableEq

/-- `boost::lexical_cast<int>`: a sign and digits, and nothing else. -/
def lexicalCastInt (s : Str) : Except ParamFault ℤ :=
  let (neg, digits) := readSign s
  if digits = [] ∨ digits.all Char.isDigit = false then .error .badLexicalCast
  else
    let n : ℤ := (Nat.ofDigitChars 10 digits 0 : ℕ)
    let v := if neg then -n else n
    if -intMax - 1 ≤ v ∧ v ≤ intMax then .ok v else .error .badLexicalCast

/-- `[ |]`. -/
def isBar (c : Char) : Bool := c = ' ' || c = '|'

/-- `boost::algorithm::split_regex(params, gcmt.at(2), boost::regex("[ |]+"))`. -/
def splitParams (gcmt : List Str) : Except ParamFault (List Str) :=
  match gcmt[2]? with
  | none => .error .outOfRange
  | some line => .ok (splitRuns isBar false [] line)

/-- `params.at(pos)`. -/
def paramAt (params : List Str) (pos : ℕ) : Except ParamFault Str :=
  match params[pos]? with
  | none => .error .outOfRange
  | some s => .ok s

/-- `RET_PARAM(int, p, pos)`. -/
def retParam (params : List Str) (pos : ℕ) : Except ParamFault ℤ := do
  let s ← paramAt params pos
  lexicalCastInt s

/-- What `run_analyze_2` returns of the status line. -/
structure Params where
  nConfigs : ℤ
  nLocs : ℤ
  nLocsUniq : ℤ
  nCacheHit : ℤ
  nLocsTotal : ℤ
  repeatId : ℤ
  iter : ℤ
  tTotal : ℤ
  tRunner : ℤ
  tSearch : ℤ
  tRunnerTotal : ℤ
  hash : Str
  deriving DecidableEq

/-- The end of `run_analyze_2`. -/
def readParams (params : List Str) : Except ParamFault Params := do
  let nConfigs ← retParam params 1
  let nLocs ← retParam params 2
  let nLocsUniq ← retParam params 3
  let nCacheHit ← retParam params 4
  let nLocsTotal ← retParam params 5
  let repeatId ← retParam params 6
  let iter ← retParam params 7
  let tTotal ← retParam params 8
  let tRunner ← retParam params 9
  let tSearch := tTotal - tRunner
  let tRunnerTotal ← retParam params 10
  let hash ← paramAt params 11
  .ok { nConfigs, nLocs, nLocsUniq, nCacheHit, nLocsTotal, repeatId, iter, tTotal, tRunner
        tSearch, tRunnerTotal, hash }

end StatusLine

/-! ## Characters and numbers -/

namespace StatusLine

/-- A character of a number in base sixteen. -/
theorem isAlphanum_of_mem_toDigits {n : ℕ} {c : Char} (h : c ∈ Nat.toDigits 16 n) :
    c.isAlphanum = true := by
  have hdigit : ∀ k < 16, (Nat.digitChar k).isAlphanum = true := by decide
  induction n using Nat.strong_induction_on with
  | _ n ih =>
      rw [Nat.toDigits_eq_if (by decide)] at h
      split at h
      · next hlt =>
          rw [List.mem_singleton.mp h]
          exact hdigit n hlt
      · next hge =>
          rcases List.mem_append.mp h with h | h
          · exact ih (n / 16) (Nat.div_lt_self (by omega) (by decide)) h
          · rw [List.mem_singleton.mp h]
            exact hdigit (n % 16) (Nat.mod_lt _ (by decide))

theorem isBar_of_isAlphanum {c : Char} (h : c.isAlphanum = true) :
    isBar c = false ∧ isSpace c = false := by
  constructor
  · by_contra hbar
    rw [Bool.not_eq_false] at hbar
    simp only [isBar, Bool.or_eq_true, decide_eq_true_eq] at hbar
    rcases hbar with rfl | rfl <;> exact absurd h (by decide)
  · by_contra hspace
    rw [Bool.not_eq_false] at hspace
    simp only [isSpace, Bool.or_eq_true, decide_eq_true_eq] at hspace
    rcases hspace with ((((rfl | rfl) | rfl) | rfl) | rfl) | rfl <;> exact absurd h (by decide)

theorem isAlphanum_hashStr {p : ℕ × ℕ} {c : Char} (h : c ∈ Header.hashStr p) :
    c.isAlphanum = true := by
  have hpad : ∀ n, c ∈ (Nat.toDigits 16 n).leftpad 16 '0' → c.isAlphanum = true := by
    intro n hc
    rw [List.leftpad, List.mem_append] at hc
    rcases hc with hc | hc
    · rw [List.eq_of_mem_replicate hc]
      decide
    · exact isAlphanum_of_mem_toDigits hc
  rcases List.mem_append.mp h with h | h
  · exact hpad _ h
  · exact hpad _ h

theorem hashStr_ne_nil (p : ℕ × ℕ) : Header.hashStr p ≠ [] := by
  intro h
  have hlen := congrArg List.length h
  rw [Header.hashStr, List.leftpad, List.leftpad] at hlen
  simp only [List.length_append, List.length_replicate, List.length_nil] at hlen
  omega

theorem isBar_showInt {i : ℤ} {c : Char} (h : c ∈ showInt i) : isBar c = false := by
  by_contra hbar
  rw [Bool.not_eq_false] at hbar
  simp only [isBar, Bool.or_eq_true, decide_eq_true_eq] at hbar
  rcases hbar with rfl | rfl <;> exact notMem_showInt (by decide) (by decide) i h

/-- Digits have no sign in front. -/
theorem readSign_toDigits (n : ℕ) : readSign (Nat.toDigits 10 n) = (false, Nat.toDigits 10 n) := by
  obtain ⟨c, l, hl⟩ := List.exists_cons_of_ne_nil (Nat.toDigits_ne_nil : Nat.toDigits 10 n ≠ [])
  have hmem : c ∈ Nat.toDigits 10 n := by
    rw [hl]
    exact List.mem_cons_self
  have hc : c.isDigit = true := Nat.isDigit_of_mem_toDigits (by decide) (by decide) hmem
  rw [hl]
  unfold readSign
  split
  · next heq =>
      cases heq
      exact absurd hc (by decide)
  · next heq =>
      cases heq
      exact absurd hc (by decide)
  · rfl

theorem lexicalCastInt_of_sign {s : Str} {neg : Bool} {n : ℕ} {i : ℤ}
    (hsign : readSign s = (neg, Nat.toDigits 10 n)) (hi : (if neg then -(n : ℤ) else n) = i)
    (hlow : -intMax - 1 ≤ i) (hhigh : i ≤ intMax) : lexicalCastInt s = .ok i := by
  have hdigits : (Nat.toDigits 10 n).all Char.isDigit = true := by
    rw [List.all_eq_true]
    intro c hc
    exact Nat.isDigit_of_mem_toDigits (by decide) (by decide) hc
  have hne : Nat.toDigits 10 n ≠ [] := Nat.toDigits_ne_nil
  unfold lexicalCastInt
  rw [hsign]
  dsimp only
  rw [if_neg (by simp [hne, hdigits]), Nat.ofDigitChars_ten_toDigits, hi, if_pos ⟨hlow, hhigh⟩]

/-- **A number in the range of `int`** is read back. -/
theorem lexicalCastInt_showInt {i : ℤ} (hlow : -intMax - 1 ≤ i) (hhigh : i ≤ intMax) :
    lexicalCastInt (showInt i) = .ok i := by
  by_cases hneg : i < 0
  · have hshow : showInt i = '-' :: Nat.toDigits 10 i.natAbs := if_pos hneg
    have hcast : -((i.natAbs : ℕ) : ℤ) = i := by
      rw [Int.ofNat_natAbs_of_nonpos hneg.le, Int.neg_neg]
    rw [hshow]
    exact lexicalCastInt_of_sign rfl hcast hlow hhigh
  · have hshow : showInt i = Nat.toDigits 10 i.toNat := if_neg hneg
    have hcast : ((i.toNat : ℕ) : ℤ) = i := Int.toNat_of_nonneg (Int.not_lt.mp hneg)
    rw [hshow]
    exact lexicalCastInt_of_sign (readSign_toDigits _) hcast hlow hhigh

/-! ## The line -/

/-- A number in its column. -/
theorem words_field (width : ℕ) (i : ℤ) {c : Char} (hc : isBar c = true) (rest : Str) :
    words isBar [] (Header.field width i ++ c :: rest) = showInt i :: words isBar [] rest := by
  have hpad : ∀ a ∈ List.replicate (width - (showInt i).length) ' ', isBar a = true := by
    intro a ha
    rw [List.eq_of_mem_replicate ha]
    rfl
  rw [Header.field, List.leftpad, List.append_assoc, words_blank_append hpad,
    words_word (fun a ha => isBar_showInt ha) hc [] rest (showInt_ne_nil i), List.nil_append]

section Line

variable (h : Header) (r : Report Str)

/-- What stands in the columns. -/
def fields : List Str :=
  ['#'] :: ([(r.nConfigs : ℤ), r.nLocs, r.nUniq, h.nCacheHit, h.runnerNLocs, h.repeatId, r.iter,
    h.elapsed, h.localTimer, h.totalElapsed].map showInt ++ [Header.hashStr h.stateHash])

/-- **The fields of the status line.** -/
theorem words_statusLine : words isBar [] (h.statusLine r) = fields h r := by
  have hblank : " ".toList = [' '] := by decide
  have hbar : " | ".toList = [' ', '|', ' '] := by decide
  have hhash : words isBar [] (Header.hashStr h.stateHash) = [Header.hashStr h.stateHash] :=
    words_end (fun c hc => (isBar_of_isAlphanum (isAlphanum_hashStr hc)).1) [] (hashStr_ne_nil _)
  have hspace : isBar ' ' = true := rfl
  have hpipe : isBar '|' = true := rfl
  have hfirst : ∀ rest, words isBar [] (['#', ' '] ++ rest) = ['#'] :: words isBar [] rest :=
    fun rest => words_word (w := ['#']) (by simp [isBar]) hspace [] rest (List.cons_ne_nil _ _)
  unfold Header.statusLine fields
  rw [hash_toList, hblank, hbar]
  simp only [List.append_assoc]
  rw [hfirst]
  simp only [List.cons_append, List.nil_append, words_field _ _ hspace, words_blank_cons hspace,
    words_blank_cons hpipe, hhash, List.map_cons, List.map_nil]

theorem head?_statusLine : (h.statusLine r).head? = some '#' := by
  unfold Header.statusLine
  rw [hash_toList]
  simp only [List.cons_append, List.head?_cons]

theorem getLast?_statusLine :
    ∃ c, (h.statusLine r).getLast? = some c ∧ c.isAlphanum = true := by
  have hlast := List.getLast?_eq_getLast_of_ne_nil (hashStr_ne_nil h.stateHash)
  refine ⟨_, ?_, isAlphanum_hashStr (List.getLast_mem (hashStr_ne_nil h.stateHash))⟩
  unfold Header.statusLine
  rw [List.getLast?_append, hlast, Option.some_or]

/-- The line is not changed by `trim`. -/
theorem trim_statusLine : trim isSpace (h.statusLine r) = h.statusLine r := by
  apply trim_eq_self
  · intro c hc
    rw [head?_statusLine] at hc
    cases hc
    decide
  · intro c hc
    obtain ⟨c', hlast, halpha⟩ := getLast?_statusLine h r
    rw [hlast] at hc
    cases hc
    exact (isBar_of_isAlphanum halpha).2

/-- **Splitting the line** gives its fields. -/
theorem splitRuns_statusLine : splitRuns isBar false [] (h.statusLine r) = fields h r := by
  rw [splitRuns_eq_words, words_statusLine]
  · intro hnil
    have hhead := head?_statusLine h r
    rw [hnil] at hhead
    cases hhead
  · intro c hc
    rw [head?_statusLine] at hc
    cases hc
    rfl
  · intro c hc
    obtain ⟨c', hlast, halpha⟩ := getLast?_statusLine h r
    rw [hlast] at hc
    cases hc
    exact (isBar_of_isAlphanum halpha).1

/-- The numbers of the header and the report are in the range of `int`. -/
def Fits : Prop :=
  ∀ i ∈ [(r.nConfigs : ℤ), r.nLocs, r.nUniq, h.nCacheHit, h.runnerNLocs, h.repeatId, r.iter,
    h.elapsed, h.localTimer, h.totalElapsed], -intMax - 1 ≤ i ∧ i ≤ intMax

/-- What should be read. -/
def params : Params where
  nConfigs := r.nConfigs
  nLocs := r.nLocs
  nLocsUniq := r.nUniq
  nCacheHit := h.nCacheHit
  nLocsTotal := h.runnerNLocs
  repeatId := h.repeatId
  iter := r.iter
  tTotal := h.elapsed
  tRunner := h.localTimer
  tSearch := h.elapsed - h.localTimer
  tRunnerTotal := h.totalElapsed
  hash := Header.hashStr h.stateHash

variable {h r}

theorem retParam_fields (hfits : Fits h r) {pos : ℕ} {i : ℤ}
    (hi : [(r.nConfigs : ℤ), r.nLocs, r.nUniq, h.nCacheHit, h.runnerNLocs, h.repeatId, r.iter,
      h.elapsed, h.localTimer, h.totalElapsed][pos]? = some i) :
    retParam (fields h r) (pos + 1) = .ok i := by
  obtain ⟨hlow, hhigh⟩ := hfits i (List.mem_of_getElem? hi)
  have hget : (fields h r)[pos + 1]? = some (showInt i) := by
    rw [fields, List.getElem?_cons_succ, List.getElem?_append_left, List.getElem?_map, hi]
    · rfl
    · rw [List.length_map]
      exact (List.getElem?_eq_some_iff.mp hi).1
  rw [retParam, paramAt, hget]
  exact lexicalCastInt_showInt hlow hhigh

/-- The line is in the third place. -/
theorem splitParams_eq {gcmt : List Str} (hline : gcmt[2]? = some (h.statusLine r)) :
    splitParams gcmt = .ok (fields h r) := by
  unfold splitParams
  rw [hline]
  dsimp only
  rw [splitRuns_statusLine]

/-- **All numbers are read** from the fields. -/
theorem readParams_eq (hfits : Fits h r) : readParams (fields h r) = .ok (params h r) := by
  have hhash : paramAt (fields h r) 11 = .ok (Header.hashStr h.stateHash) := rfl
  unfold readParams
  rw [retParam_fields hfits rfl, ok_bind,
    retParam_fields hfits rfl, ok_bind, retParam_fields hfits rfl, ok_bind,
    retParam_fields hfits rfl, ok_bind, retParam_fields hfits rfl, ok_bind,
    retParam_fields hfits rfl, ok_bind, retParam_fields hfits rfl, ok_bind,
    retParam_fields hfits rfl, ok_bind, retParam_fields hfits rfl, ok_bind,
    retParam_fields hfits rfl, ok_bind, hhash, ok_bind]
  rfl

end Line

end StatusLine

/-! ## Global comments -/

section Reading

variable {Expr : Type} {dom : Domain} {z : Z3Text Expr}

/-- **One line** is a line of `=`, or it changes neither the entries nor the global
comments. -/
theorem ReadSt.readLine_cases {st st' : ReadSt Expr} {line : Str}
    (h : ReadSt.readLine dom z st line = .ok st') : st.readEquals dom z = .ok st' ∨
      (st'.res = st.res ∧ st'.curId = st.curId ∧ st'.globalComments = st.globalComments ∧
        st'.analyzer = st.analyzer) := by
  unfold ReadSt.readLine at h
  dsimp only at h
  split at h
  · cases h
    exact .inr ⟨rfl, rfl, rfl, rfl⟩
  split at h
  · cases h
    exact .inr ⟨rfl, rfl, rfl, rfl⟩
  split at h
  · unfold ReadSt.readDashes at h
    split at h
    · obtain ⟨_, -, hok⟩ := bind_eq_ok.mp h
      cases hok
      exact .inr ⟨rfl, rfl, rfl, rfl⟩
    · obtain ⟨_, -, hok⟩ := bind_eq_ok.mp h
      cases hok
      exact .inr ⟨rfl, rfl, rfl, rfl⟩
    · cases h
  split at h
  · exact .inl h
  · unfold ReadSt.readBody at h
    split at h
    · cases h
      exact .inr ⟨rfl, rfl, rfl, rfl⟩
    · cases h
      exact .inr ⟨rfl, rfl, rfl, rfl⟩
    · obtain ⟨_, -, hok⟩ := bind_eq_ok.mp h
      cases hok
      exact .inr ⟨rfl, rfl, rfl, rfl⟩
    · cases h

/-- **A line of `=`** gives global comments, or it ends a group whose locations are added. -/
theorem ReadSt.readEquals_cases {st st' : ReadSt Expr} (h : st.readEquals dom z = .ok st') :
    (st'.res = st.res ∧ st'.curId = st.curId ∧
        st'.globalComments = st.globalComments.map (· ++ st.comments) ∧
        st'.analyzer = st.analyzer) ∨
      (st'.globalComments = st.globalComments ∧ st'.curId = st.curId + 1 ∧
        ∃ e tree r, st.locs.foldlM (addLoc e tree st.ignored st.curId)
          (st.res, true, st.comments) = .ok r ∧ st'.res = r.1 ∧
          ∃ ex n vModels, countModels dom z.toZ3 ex 1 none st.analyzer =
            .ok (n, vModels, st'.analyzer)) := by
  unfold ReadSt.readEquals at h
  split at h
  · cases h
    exact .inl ⟨rfl, rfl, rfl, rfl⟩
  · obtain ⟨e, -, h⟩ := bind_eq_ok.mp h
    obtain ⟨⟨tree, _⟩, -, h⟩ := bind_eq_ok.mp h
    obtain ⟨_, -, h⟩ := bind_eq_ok.mp h
    obtain ⟨treeE, -, h⟩ := bind_eq_ok.mp h
    obtain ⟨⟨n, vModels, analyzer⟩, hcount, h⟩ := bind_eq_ok.mp h
    obtain ⟨_, -, h⟩ := bind_eq_ok.mp h
    obtain ⟨r, hadd, h⟩ := bind_eq_ok.mp h
    cases h
    exact .inr ⟨rfl, rfl, e, tree, r, hadd, rfl, _, n, vModels, hcount⟩

/-- **What every line keeps** is kept by the rest of the file. -/
theorem readText_preserves {P : ReadSt Expr → Prop}
    (hline : ∀ st st' line, P st → ReadSt.readLine dom z st line = .ok st' → P st')
    {st st' : ReadSt Expr} {text : Str} (hst : P st) (h : readText dom z st text = .ok st') :
    P st' := by
  unfold readText at h
  generalize getlines [] text = lines at h
  induction lines generalizing st with
  | nil =>
      cases h
      exact hst
  | cons line lines ih =>
      rw [List.foldlM_cons] at h
      obtain ⟨st₁, hline₁, hrest⟩ := bind_eq_ok.mp h
      exact ih (hline st st₁ line hst hline₁) hrest

/-- No global comment is taken away. -/
theorem readText_globalComments {st st' : ReadSt Expr} {text : Str} {g : List Str}
    (hg : st.globalComments = some g) (h : readText dom z st text = .ok st') :
    ∃ more, st'.globalComments = some (g ++ more) := by
  refine readText_preserves (P := fun st => ∃ more, st.globalComments = some (g ++ more)) ?_
    ⟨[], by rw [hg, List.append_nil]⟩ h
  rintro st st' line ⟨more, hmore⟩ hline
  rcases ReadSt.readLine_cases hline with hequals | ⟨-, -, hsame, -⟩
  · rcases ReadSt.readEquals_cases hequals with ⟨-, -, hcomments, -⟩ | ⟨hsame, -, -⟩
    · refine ⟨more ++ st.comments, ?_⟩
      rw [hcomments, hmore, Option.map_some, List.append_assoc]
    · exact ⟨more, hsame.trans hmore⟩
  · exact ⟨more, hsame.trans hmore⟩

theorem readLine_hash (st : ReadSt Expr) (l : Str) : ∃ ignored,
    ReadSt.readLine dom z st ('#' :: l) = .ok { st with
      comments := st.comments ++ [trim isSpace ('#' :: l)], ignored } := by
  obtain ⟨l', hl'⟩ := @trim_cons _ isSpace _ (by decide : isSpace '#' = false) l
  refine ⟨st.ignored || decide (ignoredWord <:+: trim isSpace ('#' :: l)), ?_⟩
  unfold ReadSt.readLine
  dsimp only
  rw [hl', if_neg (List.cons_ne_nil _ _), if_pos (show ('#' :: l').head? = some '#' from rfl)]

/-- **A header** gives three global comments, and the third is the status line. -/
theorem readText_header_comments (h : Header) (r : Report Str) (hargs : '\n' ∉ h.argLine)
    (globalComments : List Str) (analyzer : Analyzer) (rest : Str) :
    ∃ st : ReadSt Expr, (∃ args seed, st.globalComments =
        some (globalComments ++ [args, seed, h.statusLine r])) ∧
      readText dom z { globalComments := some globalComments, analyzer } (h.text r ++ rest) =
        readText dom z st rest := by
  obtain ⟨equals, hequals, hendl, hread⟩ := @exists_equals _ dom z
  obtain ⟨⟨seed, hseed⟩, -, hseedEndl⟩ := h.quiet_seedLine
  obtain ⟨⟨status, hstatus⟩, -, hstatusEndl⟩ := h.quiet_statusLine r
  have htext : h.text r ++ rest = ('#' :: ' ' :: h.argLine) ++ '\n' ::
      (h.seedLine ++ '\n' :: (h.statusLine r ++ '\n' :: (equals ++ '\n' :: rest))) := by
    unfold Header.text
    rw [hash_toList, hequals]
    simp only [List.append_assoc, List.cons_append, List.nil_append]
  have hargs' : '\n' ∉ '#' :: ' ' :: h.argLine := by
    simp only [List.mem_cons, not_or]
    exact ⟨by decide, by decide, hargs⟩
  obtain ⟨ignored₁, hfirst⟩ := @readLine_hash _ dom z
    { globalComments := some globalComments, analyzer } (' ' :: h.argLine)
  obtain ⟨ignored₂, hsecond⟩ := @readLine_hash _ dom z
    { globalComments := some globalComments, analyzer
      comments := [trim isSpace ('#' :: ' ' :: h.argLine)], ignored := ignored₁ } seed
  obtain ⟨ignored₃, hthird⟩ := @readLine_hash _ dom z
    { globalComments := some globalComments, analyzer
      comments := [trim isSpace ('#' :: ' ' :: h.argLine), trim isSpace ('#' :: seed)]
      ignored := ignored₂ } status
  have htrim : trim isSpace ('#' :: status) = h.statusLine r := by
    rw [← hstatus, StatusLine.trim_statusLine]
  refine ⟨{ globalComments := some (globalComments ++ [trim isSpace ('#' :: ' ' :: h.argLine),
    trim isSpace ('#' :: seed), trim isSpace ('#' :: status)]), analyzer, ignored := ignored₃ },
    ⟨_, _, by rw [htrim]⟩, ?_⟩
  rw [htext, readText_line _ hargs', hfirst, ok_bind, readText_line _ hseedEndl, hseed]
  refine (congrArg (· >>= _) hsecond).trans ?_
  rw [ok_bind, readText_line _ hstatusEndl, hstatus]
  refine (congrArg (· >>= _) hthird).trans ?_
  rw [ok_bind, readText_line _ hendl, hread, ReadSt.readEquals, if_pos rfl, ok_bind]
  rfl

/-- **The status line of every file** that begins with a header, whatever follows. -/
theorem readFile_comments {h : Header} {r : Report Str} (hargs : '\n' ∉ h.argLine)
    {analyzer : Analyzer} {rest : Str} {st : ReadSt Expr}
    (hread : readFile dom z (some []) analyzer (h.text r ++ rest) = .ok st) :
    ∃ gcmt, st.globalComments = some gcmt ∧ gcmt[2]? = some (h.statusLine r) := by
  obtain ⟨st₀, ⟨args, seed, hst₀⟩, htext⟩ :=
    @readText_header_comments _ dom z h r hargs [] analyzer rest
  rw [readFile, htext] at hread
  obtain ⟨more, hmore⟩ := readText_globalComments hst₀ hread
  exact ⟨_, hmore, rfl⟩

end Reading

end GenTree
