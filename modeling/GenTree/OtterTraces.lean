import GenTree.OtterRunner
import GenTree.RoundTrip

/-!
# Traces and what is read from them

A `Trace` is what a trace file says: the number of options, the names of the locations, and
for each entry its locations and samples.  `Trace.Written` says how a trace may be written:
numerals, names and samples stand between any blank characters, and indices and samples may be
spread over lines; a sample may be repeated.

`parse_written` follows the lines of an entry through the three states of the parser and shows
that the parser is back in the state it has begun in, with the entry behind the others.
`run_written_iff` says what is answered: the locations of the entries with a sample that agrees.

`Written` is a relation and not a printer, as the traces come from elsewhere: one trace can be
written in many ways, and all of them are accepted.  The path condition of an entry is not part
of the `Trace`: it is only asked that there is one.
-/

namespace GenTree

open Outcome TextLines

namespace OtterRunner

/-! ## Traces -/

/-- An entry of a trace: the locations that are covered, and the values of the options with
which they are. -/
structure TraceEntry where
  locs : List ℕ
  samples : List (List ℤ)

/-- A trace. -/
structure Trace where
  nVars : ℕ
  names : List Str
  entries : List TraceEntry

/-- A numeral: an optional minus, and digits. -/
def Numeral (w : Str) (v : ℤ) : Prop :=
  ∃ (neg : Bool) (digits : Str), w = (if neg then ['-'] else []) ++ digits ∧ digits ≠ [] ∧
    (∀ c ∈ digits, c.isDigit = true) ∧
    v = if neg then -(Nat.ofDigitChars 10 digits 0 : ℤ) else (Nat.ofDigitChars 10 digits 0 : ℤ)

/-- A line of numerals. -/
def Numbers (blank : Char → Bool) (vs : List ℤ) (line : Str) : Prop :=
  ∃ ws, List.Forall₂ Numeral ws vs ∧ Spaced blank ws line

/-- What may stand between the values of a sample. -/
def isGap (c : Char) : Bool := isSpace c || c = ','

/-- The lines of an entry of a trace with `nVars` options and `nLocs` locations: lines of
location indices, a line of `-`, the path condition, a line of `-`, lines of samples, some of
which may be empty, and a line of `=`. -/
inductive TraceEntry.Written (nVars nLocs : ℕ) : TraceEntry → List Str → Prop
  | mk {locs : List (List ℕ)} {samples : List (List ℤ)} {locLines condLines sampleLines : List Str}
      {dashes dashes' equals : Str}
      (locs_written : List.Forall₂ (fun is line => Numbers isSpace (is.map Nat.cast) line) locs locLines)
      (locs_ne : locs.flatten ≠ [])
      (locs_lt : ∀ i ∈ locs.flatten, i < nLocs)
      (dashes_all : isAll dashes '-' = true)
      (cond_plain : ∀ l ∈ condLines, isAll l '-' = false ∧ isAll l '=' = false)
      (cond_ne : ∃ l ∈ condLines, ∃ c ∈ l, isSpace c = false)
      (dashes_all' : isAll dashes' '-' = true)
      (samples_written : List.Forall₂ (Numbers isGap) samples (sampleLines.filter (· ≠ [])))
      (samples_ne : samples ≠ [])
      (samples_len : ∀ s ∈ samples, s.length = nVars)
      (samples_range : ∀ s ∈ samples, ∀ v ∈ s, -1 ≤ v ∧ v ≤ 32767)
      (equals_all : isAll equals '=' = true) :
      Written nVars nLocs ⟨locs.flatten, samples⟩
        (locLines ++ dashes :: (condLines ++ dashes' :: (sampleLines ++ [equals])))

/-- The text of a trace: the line of counts, the line of names, a line of `#`, and the lines
of the entries.  The end of the last line may be missing. -/
inductive Trace.Written : Trace → Str → Prop
  | mk {tr : Trace} {gap₁ count₁ gap₂ count₂ gap₃ namesLine gap₄ hashes body : Str}
      {ls : List (List Str)}
      (vars_pos : 0 < tr.nVars) (vars_le : (tr.nVars : ℤ) ≤ intMax)
      (names_ne : tr.names ≠ []) (names_le : (tr.names.length : ℤ) ≤ intMax)
      (gaps : AllSpace gap₁ ∧ AllSpace gap₂ ∧ AllSpace gap₃ ∧ AllSpace gap₄)
      (gaps_ne : gap₂ ≠ [] ∧ gap₃ ≠ [])
      (counts : Numeral count₁ tr.nVars ∧ Numeral count₂ tr.names.length)
      (names_written : Spaced isSpace tr.names namesLine) (namesLine_endl : '\n' ∉ namesLine)
      (hashes_all : isAll hashes '#' = true)
      (entries_written : List.Forall₂ (TraceEntry.Written tr.nVars tr.names.length) tr.entries ls)
      (lines_endl : ∀ l ∈ ls.flatten, '\n' ∉ l)
      (body_lines : body = ls.flatten.flatMap (· ++ ['\n']) ∨
        body ++ ['\n'] = ls.flatten.flatMap (· ++ ['\n'])) :
      Written tr (gap₁ ++ (count₁ ++ (gap₂ ++ (count₂ ++ (gap₃ ++ (namesLine ++
        '\n' :: (gap₄ ++ (hashes ++ '\n' :: body))))))))

/-- A sample **agrees** with a configuration wherever it is not `-1`, which stands for an option
that does not matter. -/
def Agrees (sample : List ℤ) (c : Config) : Prop :=
  ∀ (i : ℕ) (v : ℤ), sample[i]? = some v → v ≠ -1 → c.values[i]? = some v

/-! ## Numerals -/

namespace Numeral

variable {w : Str} {v : ℤ}

/-- The characters of a numeral. -/
theorem mem (h : Numeral w v) {c : Char} (hc : c ∈ w) : c = '-' ∨ c.isDigit = true := by
  obtain ⟨neg, digits, rfl, -, hdigits, -⟩ := h
  rcases List.mem_append.mp hc with hc | hc
  · split at hc
    · exact .inl (List.mem_singleton.mp hc)
    · cases hc
  · exact .inr (hdigits c hc)

theorem isSpace_eq_false (h : Numeral w v) {c : Char} (hc : c ∈ w) : isSpace c = false := by
  rcases h.mem hc with rfl | hdigit
  · rfl
  · exact isSpace_of_isDigit hdigit

theorem ne_comma (h : Numeral w v) {c : Char} (hc : c ∈ w) : c ≠ ',' := by
  rcases h.mem hc with rfl | hdigit
  · decide
  · rintro rfl
    exact absurd hdigit (by decide)

/-- A numeral has a digit, so a line with one is no separator. -/
theorem exists_digit (h : Numeral w v) : ∃ c ∈ w, c.isDigit = true := by
  obtain ⟨neg, digits, rfl, hne, hdigits, -⟩ := h
  obtain ⟨c, digits', rfl⟩ := List.exists_cons_of_ne_nil hne
  exact ⟨c, by simp, hdigits c (by simp)⟩

/-- **A numeral is read back** in front of anything that is no digit. -/
theorem readInt_eq (h : Numeral w v) (hlo : -intMax - 1 ≤ v) (hhi : v ≤ intMax) {gap rest : Str}
    (hgap : AllSpace gap) (hrest : ∀ c ∈ rest.head?, c.isDigit = false) :
    readInt (gap ++ (w ++ rest)) = ⟨true, some v, rest⟩ := by
  obtain ⟨neg, digits, rfl, hne, hdigits, hv⟩ := h
  have htake : (digits ++ rest).takeWhile Char.isDigit = digits := by
    rw [List.takeWhile_append_of_pos hdigits]
    cases rest with
    | nil => rw [List.takeWhile_nil, List.append_nil]
    | cons c rest => rw [List.takeWhile_cons_of_neg (by simp [hrest c rfl]), List.append_nil]
  have hdrop : (digits ++ rest).dropWhile Char.isDigit = rest := by
    rw [List.dropWhile_append_of_pos hdigits]
    cases rest with
    | nil => rfl
    | cons c rest => rw [List.dropWhile_cons_of_neg (by simp [hrest c rfl])]
  have hskip : skipWs (gap ++ ((if neg then ['-'] else []) ++ digits ++ rest)) =
      (if neg then ['-'] else []) ++ digits ++ rest ∧
      readSign ((if neg then ['-'] else []) ++ digits ++ rest) = (neg, digits ++ rest) := by
    rw [skipWs_append hgap]
    obtain ⟨c, digits', rfl⟩ := List.exists_cons_of_ne_nil hne
    have hc := hdigits c (List.mem_cons_self ..)
    cases neg with
    | true => exact ⟨skipWs_cons (by decide) _, rfl⟩
    | false => exact ⟨skipWs_cons (isSpace_of_isDigit hc) _, readSign_of_isDigit hc _⟩
  have hnonempty : (if neg then ['-'] else []) ++ digits ++ rest ≠ [] := by
    simp [hne]
  rw [readInt, hskip.1, if_neg hnonempty, hskip.2]
  dsimp only
  rw [htake, hdrop, if_neg hne, ← hv, if_neg (by omega), if_neg (by omega)]

end Numeral

/-! ## Lines of numerals -/

theorem isDigit_of_isSpace {c : Char} (h : isSpace c = true) : c.isDigit = false := by
  by_contra hdigit
  have hfalse := isSpace_of_isDigit (by simpa using hdigit)
  rw [h] at hfalse
  cases hfalse

/-- Nothing is left to read. -/
theorem readInt_blank {gap : Str} (h : AllSpace gap) : (readInt gap).ok = false := by
  have hskip : skipWs gap = [] := List.dropWhile_eq_nil_iff.mpr h
  rw [readInt, hskip]
  rfl

/-- **A line of location indices** sets their bits. -/
theorem readLocs_eq {nLocs : ℕ} (hle : (nLocs : ℤ) ≤ intMax) {ws : List Str} {is : List ℕ} {line : Str}
    (hws : List.Forall₂ Numeral ws (is.map Nat.cast)) (hspaced : Spaced isSpace ws line)
    (hlt : ∀ i ∈ is, i < nLocs) {fuel : ℕ} (hfuel : ws.length < fuel) (bs : List Bool) :
    readLocs nLocs fuel line bs = .ok (is.foldl (fun bs i => bs.set i true) bs) := by
  obtain ⟨fuel, rfl⟩ := Nat.exists_eq_add_one_of_ne_zero (Nat.ne_zero_of_lt hfuel)
  induction hspaced generalizing is bs fuel with
  | @nil gap hgap =>
      obtain rfl : is = [] := by simpa using hws
      rw [readLocs, readInt_blank hgap]
      rfl
  | @cons gap w rest ws hgap hne hw hends _ ih =>
      cases is with
      | nil => cases hws
      | cons i is =>
          obtain ⟨hi, his⟩ := List.forall_mem_cons.mp hlt
          rw [List.map_cons, List.forall₂_cons] at hws
          obtain ⟨hnumeral, hws⟩ := hws
          have hread := hnumeral.readInt_eq (by unfold intMax; omega) (by omega) hgap
            fun c hc => isDigit_of_isSpace (hends c hc)
          have hrange : (0 : ℤ) ≤ i ∧ (i : ℤ) < nLocs := by omega
          rw [List.length_cons] at hfuel
          obtain ⟨fuel, rfl⟩ : ∃ k, fuel = k + 1 := ⟨fuel - 1, by omega⟩
          rw [readLocs, hread]
          simp only [if_true, Option.getD_some, check_pos hrange, ok_bind, Int.toNat_natCast]
          rw [ih hws his (bs.set i true) fuel (by omega)]
          rfl

/-- **A line of values** is a sample. -/
theorem readSample_eq {ws : List Str} {vs : List ℤ} {line : Str} (hws : List.Forall₂ Numeral ws vs)
    (hspaced : Spaced isSpace ws line) (hrange : ∀ v ∈ vs, -1 ≤ v ∧ v ≤ 32767) {fuel : ℕ}
    (hfuel : ws.length < fuel) (dat : List ℤ) : readSample fuel line dat = .ok (dat ++ vs) := by
  obtain ⟨fuel, rfl⟩ := Nat.exists_eq_add_one_of_ne_zero (Nat.ne_zero_of_lt hfuel)
  induction hspaced generalizing vs dat fuel with
  | @nil gap hgap =>
      obtain rfl : vs = [] := by simpa using hws
      have hok : (readShort gap).ok = false := by
        unfold readShort
        dsimp only
        split
        · exact readInt_blank hgap
        · rfl
      rw [readSample, hok, List.append_nil]
      rfl
  | @cons gap w rest ws hgap hne hw hends _ ih =>
      cases vs with
      | nil => cases hws
      | cons v vs =>
          obtain ⟨⟨hlo, hhi⟩, hvs⟩ := List.forall_mem_cons.mp hrange
          rw [List.forall₂_cons] at hws
          obtain ⟨hnumeral, hws⟩ := hws
          have hread := hnumeral.readInt_eq (by unfold intMax; omega) (by unfold intMax; omega) hgap
            fun c hc => isDigit_of_isSpace (hends c hc)
          have hshort : readShort (gap ++ (w ++ rest)) = ⟨true, some v, rest⟩ := by
            unfold readShort
            rw [hread]
            exact if_pos ⟨by show -32768 ≤ v; omega, hhi⟩
          rw [List.length_cons] at hfuel
          obtain ⟨fuel, rfl⟩ : ∃ k, fuel = k + 1 := ⟨fuel - 1, by omega⟩
          rw [readSample, hshort]
          simp only [if_true, Option.getD_some, check_pos hlo, ok_bind]
          rw [ih hws hvs (dat ++ [v]) fuel (by omega)]
          simp

/-- Each element is related to one of the other list. -/
theorem exists_related {α β : Type} {R : α → β → Prop} {as : List α} {bs : List β}
    (h : List.Forall₂ R as bs) {a : α} (ha : a ∈ as) : ∃ b, R a b := by
  obtain ⟨i, hi, rfl⟩ := List.mem_iff_getElem.mp ha
  exact ⟨_, (List.forall₂_iff_get.mp h).2 i hi (by rwa [← h.length_eq])⟩

/-- A line of numerals is no separator. -/
theorem Numbers.isAll_eq_false {blank : Char → Bool} {vs : List ℤ} {line : Str}
    (h : Numbers blank vs line) {c : Char} (hblank : blank c = false) (hdigit : c.isDigit = false) :
    isAll line c = false := by
  obtain ⟨ws, hws, hspaced⟩ := h
  by_contra hall
  rw [Bool.not_eq_false] at hall
  obtain ⟨hne, hmem⟩ := isAll_iff.mp hall
  cases hspaced with
  | nil hgap =>
      obtain ⟨a, ha⟩ := List.exists_mem_of_ne_nil _ hne
      have hfalse := hgap a ha
      rw [hmem a ha, hblank] at hfalse
      cases hfalse
  | cons _ _ _ _ _ =>
      cases hws with
      | cons hnumeral _ =>
          obtain ⟨a, ha, hd⟩ := hnumeral.exists_digit
          obtain rfl := hmem a (by simp [ha])
          rw [hdigit] at hd
          cases hd

/-! ## The lines of an entry -/

/-- Setting the bits of some locations. -/
theorem length_setBits (is : List ℕ) (bs : List Bool) :
    (is.foldl (fun bs i => bs.set i true) bs).length = bs.length := by
  induction is generalizing bs with
  | nil => rfl
  | cons i is ih => rw [List.foldl_cons, ih, List.length_set]

theorem getD_setBits {is : List ℕ} {bs : List Bool} (hlt : ∀ i ∈ is, i < bs.length) (j : ℕ) :
    (is.foldl (fun bs i => bs.set i true) bs).getD j false = true ↔
      bs.getD j false = true ∨ j ∈ is := by
  induction is generalizing bs with
  | nil => simp
  | cons i is ih =>
      obtain ⟨hi, his⟩ := List.forall_mem_cons.mp hlt
      rw [List.foldl_cons, ih (by simpa using his), List.mem_cons]
      by_cases hj : i = j
      · subst hj
        simp [List.getD_eq_getElem?_getD, List.getElem?_set_self hi]
      · rw [List.getD_eq_getElem?_getD, List.getElem?_set_ne hj, ← List.getD_eq_getElem?_getD]
        simp [Ne.symm hj]

/-- No bit is set in a new `Bitset`. -/
theorem getD_replicate (n i : ℕ) : ¬ (List.replicate n false).getD i false = true := by
  rw [List.getD_eq_getElem?_getD, List.getElem?_replicate]
  split <;> exact Bool.false_ne_true

/-- The `Bitset` of some locations. -/
def bitsOf (nLocs : ℕ) (is : List ℕ) : List Bool :=
  is.foldl (fun bs i => bs.set i true) (List.replicate nLocs false)

theorem length_bitsOf (nLocs : ℕ) (is : List ℕ) : (bitsOf nLocs is).length = nLocs := by
  rw [bitsOf, length_setBits, List.length_replicate]

theorem getD_bitsOf {nLocs : ℕ} {is : List ℕ} (hlt : ∀ i ∈ is, i < nLocs) (i : ℕ) :
    (bitsOf nLocs is).getD i false = true ↔ i ∈ is := by
  rw [bitsOf, getD_setBits (by simpa using hlt), or_iff_right (getD_replicate nLocs i)]

/-- `bs.any()`. -/
theorem any_bitsOf {nLocs : ℕ} {is : List ℕ} (hlt : ∀ i ∈ is, i < nLocs) (hne : is ≠ []) :
    (bitsOf nLocs is).any id = true := by
  obtain ⟨i, hi⟩ := List.exists_mem_of_ne_nil _ hne
  have hbit := (getD_bitsOf hlt i).mpr hi
  rw [List.getD_eq_getElem?_getD] at hbit
  rw [List.any_eq_true]
  cases hget : (bitsOf nLocs is)[i]? with
  | none =>
      rw [hget] at hbit
      cases hbit
  | some b =>
      rw [hget] at hbit
      exact ⟨b, List.mem_of_getElem? hget, hbit⟩

namespace ParseSt

variable {Hash : Type}

/-- The state between two entries: nothing has been collected for the next one. -/
def fresh (nLocs : ℕ) (entries : List Entry) : ParseSt Hash :=
  { entries, bs := List.replicate nLocs false }

variable [DecidableEq Hash] {hash : List ℤ → Hash} {nVars nLocs : ℕ}

/-- A line that is no separator. -/
theorem readLine_body {line : Str} (st : ParseSt Hash) (hdash : isAll line '-' = false)
    (hequals : isAll line '=' = false) :
    readLine hash nVars nLocs st line = readBody hash nVars nLocs st line := by
  rw [readLine, hdash, hequals]
  rfl

theorem readLine_dashes {line : Str} (st : ParseSt Hash) (h : isAll line '-' = true) :
    readLine hash nVars nLocs st line = st.readDashes := by
  rw [readLine, if_pos h]

theorem readLine_equals {line : Str} (st : ParseSt Hash) (h : isAll line '=' = true) :
    readLine hash nVars nLocs st line = st.readEquals nLocs := by
  have hdash : isAll line '-' = false := by
    obtain ⟨hne, hequals⟩ := isAll_iff.mp h
    obtain ⟨c, hc⟩ := List.exists_mem_of_ne_nil _ hne
    exact isAll_eq_false hc (by rw [hequals c hc]; decide)
  rw [readLine, hdash, h]
  rfl

/-- The lines of location indices. -/
theorem foldlM_locLines (hle : (nLocs : ℤ) ≤ intMax) {locs : List (List ℕ)} {locLines : List Str}
    (hwritten : List.Forall₂ (fun is line => Numbers isSpace (is.map Nat.cast) line) locs locLines)
    (hlt : ∀ i ∈ locs.flatten, i < nLocs) {st : ParseSt Hash} (hst : st.readState = 0) :
    locLines.foldlM (readLine hash nVars nLocs) st =
      .ok { st with bs := locs.flatten.foldl (fun bs i => bs.set i true) st.bs } := by
  induction hwritten generalizing st with
  | nil => rfl
  | @cons is line locs locLines hline _ ih =>
      rw [List.flatten_cons] at hlt
      have hdash := hline.isAll_eq_false (c := '-') (by decide) (by decide)
      have hequals := hline.isAll_eq_false (c := '=') (by decide) (by decide)
      obtain ⟨ws, hws, hspaced⟩ := hline
      have hread := readLocs_eq hle hws hspaced (fun i hi => hlt i (List.mem_append_left _ hi))
        (Nat.lt_succ_of_le hspaced.length_le) st.bs
      rw [List.foldlM_cons, readLine_body st hdash hequals, readBody, hst]
      simp only [hread, ok_bind]
      rw [ih (fun i hi => hlt i (List.mem_append_right _ hi)) rfl, List.flatten_cons,
        List.foldl_append]

/-- The lines of the path condition. -/
theorem foldlM_condLines {condLines : List Str}
    (hplain : ∀ l ∈ condLines, isAll l '-' = false ∧ isAll l '=' = false) {st : ParseSt Hash}
    (hst : st.readState = 1) :
    condLines.foldlM (readLine hash nVars nLocs) st =
      .ok { st with sexpr := st.sexpr ++ condLines.flatten } := by
  induction condLines generalizing st with
  | nil => rw [List.flatten_nil, List.append_nil]; rfl
  | cons l condLines ih =>
      obtain ⟨⟨hdash, hequals⟩, hplain⟩ := List.forall_mem_cons.mp hplain
      rw [List.foldlM_cons, readLine_body st hdash hequals, readBody, hst]
      simp only [ok_bind]
      rw [ih hplain rfl, List.flatten_cons, List.append_assoc]

/-- `s_conf_hashes` holds the hashes of the samples. -/
def Known (hash : List ℤ → Hash) (st : ParseSt Hash) : Prop :=
  ∀ s, hash s ∈ st.confHashes ↔ s ∈ st.samples

/-- A line of a sample: the sample is known afterwards. -/
theorem readLine_sample (hinj : Function.Injective hash) {s : List ℤ} {line : Str} (hne : line ≠ [])
    (hline : Numbers isGap s line) (hlen : s.length = nVars) (hrange : ∀ v ∈ s, -1 ≤ v ∧ v ≤ 32767)
    {st : ParseSt Hash} (hst : st.readState = 2) (hknown : Known hash st) :
    ∃ st', readLine hash nVars nLocs st line = .ok st' ∧ st'.readState = 2 ∧
      st'.entries = st.entries ∧ st'.bs = st.bs ∧ Known hash st' ∧
      ∀ s', s' ∈ st'.samples ↔ s' ∈ st.samples ∨ s' = s := by
  have hdash := hline.isAll_eq_false (c := '-') (by decide) (by decide)
  have hequals := hline.isAll_eq_false (c := '=') (by decide) (by decide)
  obtain ⟨ws, hws, hspaced⟩ := hline
  -- the commas are made blank
  have hspaced' : Spaced isSpace ws (line.map fun c => if c = ',' then ' ' else c) := by
    refine hspaced.map (fun c hc => ?_) fun w hw c hc => ?_
    · split
      · rfl
      · next hcomma => simpa [isGap, hcomma] using hc
    · obtain ⟨v, hnumeral⟩ := exists_related hws hw
      exact ⟨if_neg (hnumeral.ne_comma hc), hnumeral.isSpace_eq_false hc⟩
  have hsample := readSample_eq hws hspaced' hrange (Nat.lt_succ_of_le hspaced'.length_le) []
  have hcount : (s.length : ℤ) = nVars := by rw [hlen]
  rw [readLine_body st hdash hequals, readBody, hst]
  simp only [if_neg hne, hsample, List.nil_append, check_pos hcount, ok_bind]
  by_cases hseen : hash s ∈ st.confHashes
  · refine ⟨st, if_pos hseen, hst, rfl, rfl, hknown, fun s' => ?_⟩
    have hold : s' = s → s' ∈ st.samples := by
      rintro rfl
      exact (hknown s').mp hseen
    rw [or_iff_left_of_imp hold]
  · refine ⟨_, if_neg hseen, rfl, rfl, rfl, fun s' => ?_, fun s' => ?_⟩
    · rw [List.mem_cons, hknown s', List.mem_append, List.mem_singleton, hinj.eq_iff, or_comm]
    · rw [List.mem_append, List.mem_singleton]

/-- The lines of samples: what has been read is a sample, each once. -/
theorem foldlM_sampleLines (hinj : Function.Injective hash) {sampleLines : List Str}
    {samples : List (List ℤ)}
    (hwritten : List.Forall₂ (Numbers isGap) samples (sampleLines.filter (· ≠ [])))
    (hlen : ∀ s ∈ samples, s.length = nVars) (hrange : ∀ s ∈ samples, ∀ v ∈ s, -1 ≤ v ∧ v ≤ 32767)
    {st : ParseSt Hash} (hst : st.readState = 2) (hknown : Known hash st) :
    ∃ st', sampleLines.foldlM (readLine hash nVars nLocs) st = .ok st' ∧ st'.readState = 2 ∧
      st'.entries = st.entries ∧ st'.bs = st.bs ∧
      ∀ s, s ∈ st'.samples ↔ s ∈ st.samples ∨ s ∈ samples := by
  induction sampleLines generalizing samples st with
  | nil =>
      obtain rfl : samples = [] := by simpa using hwritten
      exact ⟨st, rfl, hst, rfl, rfl, by simp⟩
  | cons l sampleLines ih =>
      by_cases hl : l = []
      · subst hl
        have hread : readLine hash nVars nLocs st [] = .ok st := by
          rw [readLine_body st rfl rfl, readBody, hst]
          rfl
        obtain ⟨st', hrun, hst'⟩ := ih (by simpa using hwritten) hlen hrange hst hknown
        exact ⟨st', by rw [List.foldlM_cons, hread, ok_bind, hrun], hst'⟩
      · rw [List.filter_cons_of_pos (by simpa using hl)] at hwritten
        cases hwritten with
        | @cons s _ samples _ hline hwritten =>
            obtain ⟨hs, hlen⟩ := List.forall_mem_cons.mp hlen
            obtain ⟨hvs, hrange⟩ := List.forall_mem_cons.mp hrange
            obtain ⟨st₁, hread, hst₁, hentries₁, hbs₁, hknown₁, hmem₁⟩ :=
              readLine_sample hinj hl hline hs hvs hst hknown
            obtain ⟨st', hrun, hstate, hentries, hbs, hmem⟩ := ih hwritten hlen hrange hst₁ hknown₁
            refine ⟨st', ?_, hstate, hentries.trans hentries₁, hbs.trans hbs₁, fun s' => ?_⟩
            · rw [List.foldlM_cons, hread, ok_bind, hrun]
            · rw [hmem, hmem₁, List.mem_cons, or_assoc]

/-- What is read for an entry: the bits of its locations, and its samples. -/
structure Parsed (nLocs : ℕ) (e : TraceEntry) (entry : Entry) : Prop where
  length : entry.covs.length = nLocs
  covs : ∀ i, entry.covs.getD i false = true ↔ i ∈ e.locs
  confs : ∀ s, s ∈ entry.confs ↔ s ∈ e.samples

/-- **An entry is read**, and the parser is back between two entries. -/
theorem foldlM_entry (hinj : Function.Injective hash) (hle : (nLocs : ℤ) ≤ intMax) {e : TraceEntry}
    {ls : List Str} (h : e.Written nVars nLocs ls) (entries : List Entry) :
    ∃ entry, ls.foldlM (readLine hash nVars nLocs) (fresh nLocs entries) =
      .ok (fresh nLocs (entries ++ [entry])) ∧ Parsed nLocs e entry := by
  obtain @⟨locs, samples, locLines, condLines, sampleLines, dashes, dashes', equals, hlocs, hlocsNe, hlt,
    hdashes, hplain, ⟨l, hl, c, hc, hblank⟩, hdashes', hsamples, hsamplesNe, hlen, hrange, hequals⟩ := h
  have htrim : trim isSpace ([] ++ condLines.flatten) ≠ [] := by
    have hmem : c ∈ trim isSpace ([] ++ condLines.flatten) := by
      rw [mem_trim hblank, List.nil_append, List.mem_flatten]
      exact ⟨l, hl, hc⟩
    exact List.ne_nil_of_mem hmem
  let st₂ : ParseSt Hash := {
    entries, bs := bitsOf nLocs locs.flatten, readState := 2
    sexpr := trim isSpace ([] ++ condLines.flatten) }
  obtain ⟨st, hrun, hstate, hentries, hbs, hmem⟩ := @foldlM_sampleLines _ _ hash nVars nLocs hinj _ _
    hsamples hlen hrange st₂ rfl fun s => by simp [st₂]
  have hne : st.samples ≠ [] := by
    obtain ⟨s, hs⟩ := List.exists_mem_of_ne_nil _ hsamplesNe
    exact List.ne_nil_of_mem ((hmem s).mpr (.inr hs))
  refine ⟨⟨st.samples, st.bs⟩, ?_, ⟨?_, fun i => ?_, fun s => ?_⟩⟩
  · have hrun₀ := @foldlM_locLines _ _ hash nVars nLocs hle _ _ hlocs hlt (fresh nLocs entries) rfl
    have hfirst : ParseSt.readDashes { fresh nLocs entries with bs := bitsOf nLocs locs.flatten } =
        .ok { st₂ with readState := 1, sexpr := [] } := by
      show (check _ _ >>= fun _ => _) = _
      rw [check_pos (any_bitsOf hlt hlocsNe)]
      rfl
    have hsecond : ParseSt.readDashes { st₂ with readState := 1, sexpr := [] ++ condLines.flatten } =
        .ok st₂ := by
      show (check _ _ >>= fun _ => _) = _
      rw [check_pos htrim]
      rfl
    have hlast : st.readEquals nLocs = .ok (fresh nLocs (entries ++ [⟨st.samples, st.bs⟩])) := by
      rw [ParseSt.readEquals, check_pos hne, ok_bind, check_pos hstate, ok_bind, hentries]
      rfl
    have hbits : locs.flatten.foldl (fun bs i => bs.set i true) (fresh nLocs entries : ParseSt Hash).bs =
        bitsOf nLocs locs.flatten := rfl
    rw [List.foldlM_append, hrun₀, ok_bind, List.foldlM_cons, readLine_dashes _ hdashes, hbits, hfirst,
      ok_bind, List.foldlM_append, foldlM_condLines hplain rfl, ok_bind, List.foldlM_cons,
      readLine_dashes _ hdashes', hsecond, ok_bind, List.foldlM_append, hrun, ok_bind,
      List.foldlM_cons, readLine_equals _ hequals, hlast, ok_bind]
    rfl
  · show st.bs.length = nLocs
    rw [hbs]
    exact length_bitsOf nLocs locs.flatten
  · show st.bs.getD i false = true ↔ _
    rw [hbs, getD_bitsOf hlt]
  · show s ∈ st.samples ↔ s ∈ samples
    rw [hmem]
    simp [st₂]

/-- **The entries are read** one after the other. -/
theorem foldlM_entries (hinj : Function.Injective hash) (hle : (nLocs : ℤ) ≤ intMax)
    {es : List TraceEntry} {lss : List (List Str)}
    (h : List.Forall₂ (TraceEntry.Written nVars nLocs) es lss) (entries : List Entry) :
    ∃ new, lss.flatten.foldlM (readLine hash nVars nLocs) (fresh nLocs entries) =
      .ok (fresh nLocs (entries ++ new)) ∧ List.Forall₂ (Parsed nLocs) es new := by
  induction h generalizing entries with
  | nil => exact ⟨[], by rw [List.append_nil]; rfl, .nil⟩
  | @cons e ls es lss hentry _ ih =>
      obtain ⟨entry, hread, hparsed⟩ := foldlM_entry hinj hle hentry entries
      obtain ⟨new, hrest, hparsed'⟩ := ih (entries ++ [entry])
      refine ⟨entry :: new, ?_, .cons hparsed hparsed'⟩
      rw [List.flatten_cons, List.foldlM_append, hread, ok_bind, hrest, List.append_assoc]
      rfl

end ParseSt

/-! ## The text of a trace -/

/-- The rest of a line, behind blank characters. -/
theorem wsLine_eq {gap line rest : Str} (hgap : AllSpace gap) (hblank : ∃ c ∈ line, isSpace c = false)
    (hendl : '\n' ∉ line) :
    wsLine (gap ++ (line ++ '\n' :: rest)) = (line.dropWhile isSpace, rest) := by
  have hskip : skipWs (line ++ '\n' :: rest) = line.dropWhile isSpace ++ '\n' :: rest := by
    obtain ⟨c, hc, hspace⟩ := hblank
    rw [skipWs, List.dropWhile_append, if_neg]
    rw [List.isEmpty_iff, List.dropWhile_eq_nil_iff]
    intro hall
    rw [hall c hc] at hspace
    cases hspace
  have hkeep : ∀ c ∈ line.dropWhile isSpace, decide (c ≠ '\n') = true := by
    intro c hc
    rw [decide_eq_true_iff]
    rintro rfl
    exact hendl ((List.dropWhile_suffix _).subset hc)
  rw [wsLine, skipWs_append hgap, hskip, List.takeWhile_append_of_pos hkeep,
    List.dropWhile_append_of_pos hkeep, List.takeWhile_cons_of_neg (by simp),
    List.dropWhile_cons_of_neg (by simp), List.append_nil, List.tail_cons]

/-- The lines behind the header. -/
theorem lines_body {ls : List Str} {body : Str} (hendl : ∀ l ∈ ls, '\n' ∉ l) (hlast : ∀ l ∈ ls.getLast?, l ≠ [])
    (h : body = ls.flatMap (· ++ ['\n']) ∨ body ++ ['\n'] = ls.flatMap (· ++ ['\n'])) :
    lines '\n' [] body = ls := by
  rcases h with rfl | h
  · have hlines := lines_flatMap_append hendl []
    rwa [List.append_nil, lines, if_pos rfl, List.append_nil] at hlines
  · rcases List.eq_nil_or_concat ls with rfl | ⟨ls, l, rfl⟩
    · simp at h
    · rw [List.concat_eq_append] at *
      rw [List.flatMap_append, List.flatMap_singleton, ← List.append_assoc,
        List.append_cancel_right_eq] at h
      have hl : '\n' ∉ l := hendl l (by simp)
      rw [h, lines_flatMap_append (fun l' hl' => hendl l' (List.mem_append_left _ hl')),
        lines_unended hl (hlast l (by simp)), List.nil_append]

/-- The last line of an entry is a line of `=`, and not empty. -/
theorem TraceEntry.Written.getLast?_ne_nil {nVars nLocs : ℕ} {e : TraceEntry} {ls : List Str}
    (h : e.Written nVars nLocs ls) : ∀ l ∈ ls.getLast?, l ≠ [] := by
  obtain @⟨_, _, locLines, condLines, sampleLines, dashes, dashes', equals, _, _, _, _, _, _, _, _, _,
    _, _, hequals⟩ := h
  have hlast : (locLines ++ dashes :: (condLines ++ dashes' :: (sampleLines ++ [equals]))).getLast? =
      some equals := by
    simp [List.getLast?_append, List.getLast?_cons]
  rw [hlast]
  rintro l ⟨⟩ rfl
  cases hequals

theorem getLast?_flatten_ne_nil {nVars nLocs : ℕ} {es : List TraceEntry} {lss : List (List Str)}
    (h : List.Forall₂ (TraceEntry.Written nVars nLocs) es lss) :
    ∀ l ∈ lss.flatten.getLast?, l ≠ [] := by
  induction h with
  | nil =>
      intro l hl
      cases hl
  | @cons e ls es lss hentry _ ih =>
      intro l hl
      rw [List.flatten_cons, List.getLast?_append, Option.mem_def, Option.or_eq_some_iff] at hl
      rcases hl with hl | ⟨-, hl⟩
      · exact ih l hl
      · exact hentry.getLast?_ne_nil l hl

/-- No digit follows a numeral that stands in front of a gap. -/
theorem head?_gap {gap : Str} (h : AllSpace gap) (hne : gap ≠ []) (rest : Str) :
    ∀ c ∈ (gap ++ rest).head?, c.isDigit = false := by
  obtain ⟨c, gap, rfl⟩ := List.exists_cons_of_ne_nil hne
  rintro _ ⟨⟩
  exact isDigit_of_isSpace (h c (List.mem_cons_self ..))

/-- **A written trace is read back.** -/
theorem parse_written {Hash : Type} [DecidableEq Hash] {hash : List ℤ → Hash}
    (hinj : Function.Injective hash) {tr : Trace} {text : Str} (h : tr.Written text) :
    ∃ entries, parse hash text = .ok { nVars := tr.nVars, locNames := tr.names, entries } ∧
      List.Forall₂ (ParseSt.Parsed tr.names.length) tr.entries entries := by
  obtain @⟨gap₁, count₁, gap₂, count₂, gap₃, namesLine, gap₄, hashes, body, ls, hvars, hvarsLe,
    hnames, hnamesLe, ⟨hgap₁, hgap₂, hgap₃, hgap₄⟩, ⟨hne₂, hne₃⟩, ⟨hcount₁, hcount₂⟩, hspaced, hendl,
    hhashes, hentries, hlines, hbody⟩ := h
  obtain ⟨hhashesNe, hhash⟩ := isAll_iff.mp hhashes
  have hhashBlank : ∀ c ∈ hashes, isSpace c = false := by
    intro c hc
    rw [hhash c hc]
    rfl
  have hhashLine : hashes.dropWhile isSpace = hashes := by
    obtain ⟨c, hashes, rfl⟩ := List.exists_cons_of_ne_nil hhashesNe
    exact List.dropWhile_cons_of_neg (by simp [hhashBlank c])
  have hhashEndl : '\n' ∉ hashes := by
    intro hmem
    cases hhash _ hmem
  have hlocs : 0 < tr.names.length := List.length_pos_iff.mpr hnames
  -- the header
  have hread₁ := hcount₁.readInt_eq (by unfold intMax; omega) hvarsLe hgap₁
    (head?_gap hgap₂ hne₂ (count₂ ++ (gap₃ ++ (namesLine ++ '\n' :: (gap₄ ++ (hashes ++ '\n' :: body))))))
  have hread₂ := hcount₂.readInt_eq (by unfold intMax; omega) hnamesLe hgap₂
    (head?_gap hgap₃ hne₃ (namesLine ++ '\n' :: (gap₄ ++ (hashes ++ '\n' :: body))))
  have hread₃ := @wsLine_eq _ _ (gap₄ ++ (hashes ++ '\n' :: body)) hgap₃
    (hspaced.exists_not_blank hnames) hendl
  have hread₄ := @wsLine_eq _ _ body hgap₄
    ((List.exists_mem_of_ne_nil _ hhashesNe).imp fun c hc => ⟨hc, hhashBlank c hc⟩) hhashEndl
  have hwords : words isSpace [] (namesLine.dropWhile isSpace) = tr.names := by
    rw [words_dropWhile, hspaced.words_eq]
  -- the entries
  obtain ⟨entries, hrun, hparsed⟩ := ParseSt.foldlM_entries hinj hnamesLe hentries []
  refine ⟨entries, ?_, hparsed⟩
  have hpos : (0 : ℤ) < tr.nVars ∧ (0 : ℤ) < tr.names.length := by omega
  have hfold : (lines '\n' [] body).foldlM (ParseSt.readLine hash tr.nVars tr.names.length)
      { bs := List.replicate tr.names.length false } = .ok (ParseSt.fresh tr.names.length entries) := by
    rw [lines_body hlines (getLast?_flatten_ne_nil hentries) hbody]
    exact hrun
  unfold parse
  simp only [hread₁, hread₂, hread₃, hread₄, Option.getD_some, hwords, hhashLine, hhashes, and_self,
    check_pos hpos, check_pos trivial, ok_bind, Int.toNat_natCast, hfold]
  rfl

/-! ## Answering from a trace -/

theorem TraceEntry.Written.length_sample {nVars nLocs : ℕ} {e : TraceEntry} {ls : List Str}
    (h : e.Written nVars nLocs ls) : ∀ s ∈ e.samples, s.length = nVars := by
  cases h with
  | mk _ _ _ _ _ _ _ _ _ hlen _ _ => exact hlen

/-- The samples of a written trace have a value for each option. -/
theorem Trace.Written.length_sample {tr : Trace} {text : Str} (h : tr.Written text) :
    ∀ e ∈ tr.entries, ∀ s ∈ e.samples, s.length = tr.nVars := by
  cases h with
  | mk _ _ _ _ _ _ _ _ _ _ hentries _ _ =>
      intro e he
      obtain ⟨ls, hentry⟩ := exists_related hentries he
      exact hentry.length_sample

/-- The loop of `_match` compares the options from `i` on. -/
theorem matchFrom_eq {a b : List ℤ} (hb : ∀ v ∈ b, v ≠ -1) (left i : ℕ) (ha : i + left ≤ a.length)
    (hlen : i + left ≤ b.length) :
    ∃ ok, matchFrom a b i left = .ok ok ∧ (ok = true ↔
      ∀ j v, i ≤ j → j < i + left → a[j]? = some v → v ≠ -1 → b[j]? = some v) := by
  induction left generalizing i with
  | zero =>
      refine ⟨true, rfl, ?_⟩
      rw [iff_true_left rfl]
      intro j v hlo hhi
      omega
  | succ left ih =>
      obtain ⟨x, hx⟩ : ∃ x, a[i]? = some x := ⟨_, List.getElem?_eq_getElem (by omega)⟩
      obtain ⟨y, hy⟩ : ∃ y, b[i]? = some y := ⟨_, List.getElem?_eq_getElem (by omega)⟩
      have hyne : y ≠ -1 := hb y (List.mem_of_getElem? hy)
      rw [matchFrom, vecAt_of_getElem? hx, vecAt_of_getElem? hy]
      simp only [ok_bind]
      by_cases hdiff : x ≠ -1 ∧ y ≠ -1 ∧ x ≠ y
      · obtain ⟨hxne, -, hxy⟩ := hdiff
        refine ⟨false, by rw [if_pos ⟨hxne, hyne, hxy⟩], ?_⟩
        rw [iff_false_left Bool.false_ne_true]
        intro hall
        have hsame := hall i x le_rfl (by omega) hx hxne
        rw [hy, Option.some.injEq] at hsame
        exact hxy hsame.symm
      · obtain ⟨ok, hrun, hok⟩ := ih (i + 1) (by omega) (by omega)
        refine ⟨ok, by rw [if_neg hdiff, hrun], hok.trans ⟨fun hall => ?_, fun hall => ?_⟩⟩
        · intro j v hlo hhi hv hne
          rcases Nat.eq_or_lt_of_le hlo with rfl | hlt
          · rw [hx, Option.some.injEq] at hv
            subst hv
            have hxy : x = y := by
              by_contra hxy
              exact hdiff ⟨hne, hyne, hxy⟩
            rw [hy, hxy]
          · exact hall j v hlt (by omega) hv hne
        · intro j v hlo hhi
          exact hall j v (by omega) (by omega)

variable {dom : Domain} {c : Config} {r : OtterRunner}

/-- **`_match`** decides whether a sample agrees with a complete configuration. -/
theorem match_eq (hc : c.Complete dom) (hvars : r.nVars = dom.nVars) {s : List ℤ}
    (hs : s.length = dom.nVars) : ∃ ok, r.match_ s c = .ok ok ∧ (ok = true ↔ Agrees s c) := by
  have hvalues : ∀ v ∈ c.values, v ≠ -1 := by
    intro v hv
    obtain ⟨i, hi⟩ := List.mem_iff_getElem?.mp hv
    have hnn := (hc.2 i v hi).1
    omega
  obtain ⟨ok, hrun, hok⟩ := @matchFrom_eq s _ hvalues r.nVars.toNat 0 (by omega) (by rw [hc.1]; omega)
  refine ⟨ok, hrun, hok.trans ⟨fun hall => ?_, fun hall => ?_⟩⟩
  · intro i v hv
    have hi : i < s.length := (List.getElem?_eq_some_iff.mp hv).1
    exact hall i v (Nat.zero_le i) (by omega) hv
  · intro i v _ _ hv
    exact hall i v hv

/-- An entry counts as soon as one of its samples agrees. -/
theorem runEntry_eq (hc : c.Complete dom) (hvars : r.nVars = dom.nVars) {confs : List (List ℤ)}
    (hlen : ∀ s ∈ confs, s.length = dom.nVars) (covs bs : List Bool) :
    (∃ s ∈ confs, Agrees s c) ∧ r.runEntry c covs confs bs = .ok (List.zipWith or bs covs) ∨
      (¬ ∃ s ∈ confs, Agrees s c) ∧ r.runEntry c covs confs bs = .ok bs := by
  induction confs with
  | nil => exact .inr ⟨by simp, rfl⟩
  | cons s confs ih =>
      obtain ⟨hs, hlen⟩ := List.forall_mem_cons.mp hlen
      obtain ⟨ok, hmatch, hok⟩ := match_eq hc hvars hs
      rw [runEntry, hmatch, ok_bind, List.exists_mem_cons_iff]
      cases ok with
      | true => exact .inl ⟨.inl (hok.mp rfl), rfl⟩
      | false =>
          have hno : ¬ Agrees s c := fun h => Bool.false_ne_true (hok.mpr h)
          rw [or_iff_right hno]
          exact ih hlen

theorem getD_zipWith_or {bs covs : List Bool} (hlen : bs.length = covs.length) (i : ℕ) :
    (List.zipWith or bs covs).getD i false = true ↔
      bs.getD i false = true ∨ covs.getD i false = true := by
  simp only [List.getD_eq_getElem?_getD, List.getElem?_zipWith]
  by_cases hi : i < bs.length
  · rw [List.getElem?_eq_getElem hi, List.getElem?_eq_getElem (hlen ▸ hi)]
    simp
  · rw [List.getElem?_eq_none (by omega), List.getElem?_eq_none (by omega)]
    simp

/-- **The loop of `run`**: a bit is set when an entry with an agreeing sample lists its location. -/
theorem foldlM_runEntry (hc : c.Complete dom) (hvars : r.nVars = dom.nVars) {nLocs : ℕ}
    {es : List TraceEntry} {entries : List Entry}
    (hparsed : List.Forall₂ (ParseSt.Parsed nLocs) es entries)
    (hlen : ∀ e ∈ es, ∀ s ∈ e.samples, s.length = dom.nVars) {bs : List Bool}
    (hbs : bs.length = nLocs) :
    ∃ bs', entries.foldlM (fun bs e => r.runEntry c e.covs e.confs bs) bs = .ok bs' ∧
      bs'.length = nLocs ∧ ∀ i, bs'.getD i false = true ↔
        bs.getD i false = true ∨ ∃ e ∈ es, (∃ s ∈ e.samples, Agrees s c) ∧ i ∈ e.locs := by
  induction hparsed generalizing bs with
  | nil => exact ⟨bs, rfl, hbs, by simp⟩
  | @cons e entry es entries hentry _ ih =>
      obtain ⟨he, hlen⟩ := List.forall_mem_cons.mp hlen
      have hconfs : ∀ s ∈ entry.confs, s.length = dom.nVars := fun s hs => he s ((hentry.confs s).mp hs)
      have hagrees : (∃ s ∈ entry.confs, Agrees s c) ↔ ∃ s ∈ e.samples, Agrees s c :=
        exists_congr fun s => and_congr_left' (hentry.confs s)
      have hcovs : bs.length = entry.covs.length := by rw [hbs, hentry.length]
      rw [List.foldlM_cons]
      rcases runEntry_eq hc hvars hconfs entry.covs bs with ⟨hmatch, hrun⟩ | ⟨hmatch, hrun⟩
      · have hor : (List.zipWith or bs entry.covs).length = nLocs := by
          rw [List.length_zipWith, ← hcovs, Nat.min_self, hbs]
        obtain ⟨bs', hrest, hlen', hmem⟩ := ih hlen hor
        refine ⟨bs', by rw [hrun, ok_bind, hrest], hlen', fun i => ?_⟩
        rw [hmem, getD_zipWith_or hcovs, hentry.covs, List.exists_mem_cons_iff,
          and_iff_right (hagrees.mp hmatch), or_assoc]
      · obtain ⟨bs', hrest, hlen', hmem⟩ := ih hlen hbs
        refine ⟨bs', by rw [hrun, ok_bind, hrest], hlen', fun i => ?_⟩
        rw [hmem, List.exists_mem_cons_iff, or_iff_right (a := _ ∧ _)]
        exact fun h => hmatch (hagrees.mpr h.1)

theorem mem_positions {bs : List Bool} {i : ℕ} : i ∈ positions bs ↔ bs.getD i false = true := by
  rw [positions, List.mem_filter, List.mem_range, and_iff_right_iff_imp]
  intro h
  by_contra hge
  rw [List.getD_eq_getElem?_getD, List.getElem?_eq_none (by omega)] at h
  cases h

/-- The names at some positions. -/
theorem foldlM_names {names : List Str} {ps : List ℕ} (hlt : ∀ p ∈ ps, p < names.length)
    (ret : Finset Str) :
    ∃ ret', (ps.foldlM (fun ret pos => do
        let name ← vecAt names pos
        .ok (insert name ret)) ret : Except Abort (Finset Str)) = .ok ret' ∧
      ∀ name, name ∈ ret' ↔ name ∈ ret ∨ ∃ p ∈ ps, names[p]? = some name := by
  induction ps generalizing ret with
  | nil => exact ⟨ret, rfl, by simp⟩
  | cons p ps ih =>
      obtain ⟨hp, hlt⟩ := List.forall_mem_cons.mp hlt
      have hget := List.getElem?_eq_getElem hp
      obtain ⟨ret', hrun, hmem⟩ := ih hlt (insert names[p] ret)
      refine ⟨ret', ?_, fun name => ?_⟩
      · rw [List.foldlM_cons, vecAt_of_getElem? hget, ok_bind, ok_bind, hrun]
      · rw [hmem, Finset.mem_insert, List.exists_mem_cons_iff, hget, Option.some.injEq,
          eq_comm (a := name), or_comm (a := names[p] = name), or_assoc]

/-- **A trace is answered from as it says.**  For every written trace and every complete
configuration, `run` returns the names of the locations of the entries with a sample that
agrees with the configuration, and no others. -/
theorem run_written_iff {Hash : Type} [DecidableEq Hash] {hash : List ℤ → Hash}
    (hinj : Function.Injective hash) {tr : Trace} {text : Str} (h : tr.Written text) {dom : Domain}
    (hvars : tr.nVars = dom.nVars) {c : Config} (hc : c.Complete dom) :
    ∃ r ret, parse hash text = .ok r ∧ r.run dom c = .ok ret ∧
      ∀ name, name ∈ ret ↔
        ∃ e ∈ tr.entries, (∃ s ∈ e.samples, Agrees s c) ∧ ∃ i ∈ e.locs, tr.names[i]? = some name := by
  obtain ⟨entries, hparse, hparsed⟩ := parse_written hinj h
  let r : OtterRunner := { nVars := tr.nVars, locNames := tr.names, entries }
  have hr : r.nVars = dom.nVars := congrArg Nat.cast hvars
  have hlen : ∀ e ∈ tr.entries, ∀ s ∈ e.samples, s.length = dom.nVars := hvars ▸ h.length_sample
  obtain ⟨bs, hrun, hlenBs, hbits⟩ := foldlM_runEntry hc hr hparsed hlen
    (List.length_replicate (n := tr.names.length) (a := false))
  obtain ⟨ret, hnames, hmem⟩ := @foldlM_names tr.names (positions bs)
    (fun p hp => hlenBs ▸ (List.mem_range.mp (List.mem_filter.mp hp).1)) ∅
  refine ⟨r, ret, hparse, ?_, fun name => ?_⟩
  · rw [run, check_pos hr, ok_bind, hrun, ok_bind, hnames]
  · rw [hmem, or_iff_right (Finset.notMem_empty name)]
    simp only [mem_positions, hbits, or_iff_right (getD_replicate tr.names.length _)]
    constructor
    · rintro ⟨i, ⟨e, he, hagrees, hi⟩, hname⟩
      exact ⟨e, he, hagrees, i, hi, hname⟩
    · rintro ⟨e, he, hagrees, i, hi, hname⟩
      exact ⟨i, ⟨e, he, hagrees, hi⟩, hname⟩

/-- Two entries; the first has a wildcard, a sample twice and indices on two lines. -/
theorem run_written_iff_two :
    let tr : Trace := ⟨2, [['a'], ['b']], [⟨[0, 0], [[-1, 0], [1, 1], [-1, 0]]⟩, ⟨[1], [[0, -1]]⟩]⟩
    let text := "2 2\na b\n##\n0\n0\n--\nx\n--\n-1,0\n1,1\n-1,0\n==\n1\n-\ny\n-\n0,-1\n=\n".toList
    let dom : Domain := ⟨[⟨"x", ["0", "1"]⟩, ⟨"y", ["0", "1"]⟩], by decide, by decide⟩
    let c : Config := { values := [1, 0] }
    ∃ r ret, parse (id : List ℤ → List ℤ) text = .ok r ∧ r.run dom c = .ok ret ∧
      ∀ name, name ∈ ret ↔
        ∃ e ∈ tr.entries, (∃ s ∈ e.samples, Agrees s c) ∧ ∃ i ∈ e.locs, tr.names[i]? = some name := by
  intro tr text dom c
  have h0 : Numeral ['0'] 0 := ⟨false, ['0'], rfl, by decide, List.forall_mem_singleton.mpr rfl, rfl⟩
  have h1 : Numeral ['1'] 1 := ⟨false, ['1'], rfl, by decide, List.forall_mem_singleton.mpr rfl, rfl⟩
  have h2 : Numeral ['2'] 2 := ⟨false, ['2'], rfl, by decide, List.forall_mem_singleton.mpr rfl, rfl⟩
  have hminus : Numeral ['-', '1'] (-1) := ⟨true, ['1'], rfl, by decide, List.forall_mem_singleton.mpr rfl, rfl⟩
  have hfirst : TraceEntry.Written 2 2 ⟨[0, 0], [[-1, 0], [1, 1], [-1, 0]]⟩
      [['0'], ['0'], "--".toList, ['x'], "--".toList, "-1,0".toList, "1,1".toList, "-1,0".toList,
        "==".toList] :=
    @TraceEntry.Written.mk 2 2 [[0], [0]] [[-1, 0], [1, 1], [-1, 0]] [['0'], ['0']] [['x']]
      ["-1,0".toList, "1,1".toList, "-1,0".toList] "--".toList "--".toList "==".toList
      (.cons ⟨[['0']], .cons h0 .nil, spaced_iff.mpr rfl⟩
        (.cons ⟨[['0']], .cons h0 .nil, spaced_iff.mpr rfl⟩ .nil))
      (by decide) (by decide) (by decide) (by decide) ⟨['x'], by simp, 'x', by simp, rfl⟩ (by decide)
      (.cons ⟨_, .cons hminus (.cons h0 .nil), spaced_iff.mpr rfl⟩
        (.cons ⟨_, .cons h1 (.cons h1 .nil), spaced_iff.mpr rfl⟩
          (.cons ⟨_, .cons hminus (.cons h0 .nil), spaced_iff.mpr rfl⟩ .nil)))
      (by decide) (by decide) (by decide) (by decide)
  have hsecond : TraceEntry.Written 2 2 ⟨[1], [[0, -1]]⟩
      [['1'], ['-'], ['y'], ['-'], "0,-1".toList, ['=']] :=
    @TraceEntry.Written.mk 2 2 [[1]] [[0, -1]] [['1']] [['y']] ["0,-1".toList] ['-'] ['-'] ['=']
      (.cons ⟨[['1']], .cons h1 .nil, spaced_iff.mpr rfl⟩ .nil)
      (by decide) (by decide) (by decide) (by decide) ⟨['y'], by simp, 'y', by simp, rfl⟩ (by decide)
      (.cons ⟨_, .cons h0 (.cons hminus .nil), spaced_iff.mpr rfl⟩ .nil)
      (by decide) (by decide) (by decide) (by decide)
  have hwritten : tr.Written text :=
    @Trace.Written.mk tr [] ['2'] [' '] ['2'] ['\n'] "a b".toList [] "##".toList
      "0\n0\n--\nx\n--\n-1,0\n1,1\n-1,0\n==\n1\n-\ny\n-\n0,-1\n=\n".toList _
      (by decide) (by decide) (by decide) (by decide)
      ⟨allSpace_nil, List.forall_mem_singleton.mpr rfl, List.forall_mem_singleton.mpr rfl, allSpace_nil⟩
      (by decide) ⟨h2, h2⟩
      (spaced_iff.mpr rfl) (by decide) (by decide) (.cons hfirst (.cons hsecond .nil))
      (by decide) (.inl (by decide))
  exact run_written_iff Function.injective_id hwritten rfl (by decide)

/-- An entry without samples is not read. -/
theorem parse_no_samples :
    parse (id : List ℤ → List ℤ) "1 1\na\n#\n0\n-\nx\n-\n=\n".toList = .error .otterNoSamples :=
  rfl

end OtterRunner

end GenTree
