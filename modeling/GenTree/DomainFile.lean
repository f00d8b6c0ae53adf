import GenTree.Library.InputStream
import GenTree.ReportLines

/-!
# Domain files

`Domain::parse` reads one option from a line: its name and the labels of its
values, up to a word that begins with `#`.  It aborts at a name that it has seen
before, and then at an option without labels.  Options with equal label vectors
share one sort of Z3, which bears the name of the first of them.

* `row` — what a line says, without the stream it is read through.
* `Good.parse`, `FirstBad.parse` — what a file is read as, and which check the
  first bad line fails.
* `Reads.zsort_eq_iff`, `Reads.exists_domain` — each option has the sort that
  `zsortName` says, and different label vectors have sorts of different names.
* `parse_laid` — options are read back from any layout they are written in.
-/

namespace GenTree

open Outcome TextLines InputStream

/-! ## The code -/

/-- The two checks of `Domain::parse`. -/
inductive DomainFault
  /-- `CHECKF(set_names.insert(name).second, "Duplicate option name: {}", name)`. -/
  | duplicate (name : Str)
  /-- `CHECK_GT(n_vals, 0)`. -/
  | noLabels
  deriving DecidableEq

/-- An `entry` of `vars_`: `zsort` is the name of its `zsort_`. -/
structure DomainEntry where
  name : Str
  labels : List Str
  zsort : Str
  deriving DecidableEq

/-- The state of `Domain::parse`.  Of a sort in `sorts` its name is kept. -/
structure DomainParse where
  vars : List DomainEntry := []
  sorts : List (List Str × Str) := []
  setNames : List Str := []
  nAllValues : ℕ := 0
  deriving DecidableEq

namespace DomainParse

/-- The loop `while (ss >> val)`. -/
def readLabels (ss : Stream Char) : List Str :=
  match _h : ss.word isSpace with
  | (none, _) => []
  | (some val, ss') => if val.head? = some '#' then [] else val :: readLabels ss'
termination_by ss.rest.length
decreasing_by exact Stream.length_word_lt _h

/-- The rest of the body, once both checks have passed. -/
def declare (d : DomainParse) (name : Str) (labels : List Str) : DomainParse :=
  let setNames := d.setNames ++ [name]
  let nAllValues := d.nAllValues + labels.length
  match d.sorts.lookup labels with
  | some zsort =>
      { d with vars := d.vars ++ [{ name, labels, zsort }], setNames, nAllValues }
  | none =>
      { vars := d.vars ++ [{ name, labels, zsort := name }]
        sorts := d.sorts ++ [(labels, name)], setNames, nAllValues }

/-- One line. -/
def parseLine (d : DomainParse) (line : Str) : Except DomainFault DomainParse :=
  let ss : Stream Char := { rest := line }
  let (name, ss) := ss.word isSpace
  let name := name.getD []
  if name = [] ∨ name.head? = some '#' then .ok d
  else if d.setNames.contains name then .error (.duplicate name)
  else
    let labels := readLabels ss
    if labels = [] then .error .noLabels else .ok (d.declare name labels)

/-- `Domain::parse`. -/
def parse (text : Str) : Except DomainFault DomainParse :=
  (getlines [] text).foldlM parseLine {}

end DomainParse

/-! ## Lines -/

/-- The check for a comment. -/
def isComment (word : Str) : Bool := decide (word.head? = some '#')

/-- What a line says: a name, and the labels in front of a comment. -/
def row (line : Str) : Option (Str × List Str) :=
  match words isSpace [] line with
  | [] => none
  | name :: vals =>
      if isComment name then none else some (name, vals.takeWhile fun val => !isComment val)

/-- What a file says. -/
def rows (text : Str) : List (Str × List Str) := (lines '\n' [] text).filterMap row

namespace DomainParse

/-- `parseLine` of what a line says. -/
def parseRow (d : DomainParse) (r : Str × List Str) : Except DomainFault DomainParse :=
  if d.setNames.contains r.1 then .error (.duplicate r.1)
  else if r.2 = [] then .error .noLabels else .ok (d.declare r.1 r.2)

theorem readLabels_eq {ws : List Str} {rest : Str} {ss : Stream Char} (h : ss.At rest)
    (hw : words isSpace [] rest = ws) :
    readLabels ss = ws.takeWhile fun val => !isComment val := by
  induction ws generalizing rest ss with
  | nil =>
      have hnone := h.word_of_words_nil hw
      rw [readLabels]
      split
      · rfl
      · next hword =>
          rw [hword] at hnone
          cases hnone
  | cons w ws ih =>
      obtain ⟨rest', hword, hws⟩ := h.word_of_words hw
      rw [readLabels]
      split
      · next hnone =>
          rw [hword] at hnone
          cases hnone
      · next hsome =>
          rw [hword, Prod.mk.injEq, Option.some.injEq] at hsome
          obtain ⟨rfl, rfl⟩ := hsome
          rw [ih (Stream.at_leave rest') hws, List.takeWhile_cons]
          by_cases hcomment : w.head? = some '#' <;> simp [isComment, hcomment]

theorem parseLine_eq (d : DomainParse) (line : Str) :
    d.parseLine line = (row line).elim (.ok d) d.parseRow := by
  have hat : ({ rest := line } : Stream Char).At line := Stream.at_mk line
  unfold parseLine row
  cases hw : words isSpace [] line with
  | nil =>
      have hnone := hat.word_of_words_nil hw
      dsimp only
      rw [hnone]
      rfl
  | cons w ws =>
      obtain ⟨rest', hword, hws⟩ := hat.word_of_words hw
      have hne : w ≠ [] := by
        cases spaced_iff.mpr hw with
        | cons _ hne _ _ _ => exact hne
      dsimp only
      rw [hword]
      dsimp only
      rw [Option.getD_some, readLabels_eq (Stream.at_leave rest') hws]
      by_cases hcomment : w.head? = some '#'
      · simp [isComment, hcomment]
      · simp [isComment, hcomment, hne, parseRow]

/-- **The file is what its lines say**, one after the other. -/
theorem parse_eq (text : Str) : parse text = (rows text).foldlM parseRow {} := by
  have hfold : ∀ (ls : List Str) (d : DomainParse),
      ls.foldlM parseLine d = (ls.filterMap row).foldlM parseRow d := by
    intro ls
    induction ls with
    | nil =>
        intro d
        rfl
    | cons l ls ih =>
        intro d
        rw [List.foldlM_cons, parseLine_eq, List.filterMap_cons]
        cases row l with
        | none => exact ih d
        | some r =>
            rw [List.foldlM_cons]
            exact congrArg _ (funext ih)
  rw [parse, getlines_eq, hfold, rows]

/-! ## Sorts -/

/-- The name of the first of the options with these labels. -/
def sortOf (rs : List (Str × List Str)) (labels : List Str) : Option Str :=
  (rs.find? fun r => decide (r.2 = labels)).map Prod.fst

/-- The names differ, and every option has labels. -/
structure Good (rs : List (Str × List Str)) : Prop where
  names : (rs.map Prod.fst).Nodup
  labels : ∀ r ∈ rs, r.2 ≠ []

/-- `d` is what `parse` has after the options `rs`. -/
structure Reads (rs : List (Str × List Str)) (d : DomainParse) : Prop where
  vars : d.vars = rs.map fun r => ⟨r.1, r.2, (sortOf rs r.2).getD []⟩
  sorts : ∀ labels, d.sorts.lookup labels = sortOf rs labels
  setNames : d.setNames = rs.map Prod.fst
  nAllValues : d.nAllValues = (rs.map fun r => r.2.length).sum

theorem sortOf_concat (rs : List (Str × List Str)) (r : Str × List Str) (labels : List Str) :
    sortOf (rs ++ [r]) labels =
      (sortOf rs labels).or (if r.2 = labels then some r.1 else none) := by
  unfold sortOf
  rw [List.find?_append]
  cases rs.find? fun r => decide (r.2 = labels) with
  | some r' => rfl
  | none =>
      by_cases h : r.2 = labels <;> simp [h]

theorem sortOf_isSome {rs : List (Str × List Str)} {r : Str × List Str} (h : r ∈ rs) :
    ∃ name, sortOf rs r.2 = some name := by
  rw [← Option.isSome_iff_exists, sortOf, Option.isSome_map, List.find?_isSome]
  exact ⟨r, h, decide_eq_true rfl⟩

theorem reads_nil : Reads [] {} :=
  ⟨rfl, fun _ => rfl, rfl, rfl⟩

/-- **One option.** -/
theorem Reads.declare {rs : List (Str × List Str)} {d : DomainParse} (h : Reads rs d)
    (r : Str × List Str) : Reads (rs ++ [r]) (d.declare r.1 r.2) := by
  -- the options that were there keep their sorts
  have hkeep : (rs.map fun r' => (⟨r'.1, r'.2, (sortOf (rs ++ [r]) r'.2).getD []⟩ : DomainEntry)) =
      d.vars := by
    rw [h.vars]
    apply List.map_congr_left
    intro r' hr'
    obtain ⟨name, hname⟩ := sortOf_isSome hr'
    rw [sortOf_concat, hname, Option.some_or]
  have hlook := h.sorts r.2
  unfold DomainParse.declare
  cases hsort : d.sorts.lookup r.2 with
  | some zsort =>
      rw [hsort] at hlook
      constructor
      · rw [List.map_append, hkeep, List.map_singleton, sortOf_concat, ← hlook]
        rfl
      · intro labels
        show d.sorts.lookup labels = _
        rw [sortOf_concat, h.sorts]
        by_cases hlabels : r.2 = labels
        · subst hlabels
          rw [← hlook]
          rfl
        · rw [if_neg hlabels, Option.or_none]
      · rw [List.map_append, ← h.setNames]
        rfl
      · rw [List.map_append, List.sum_append, ← h.nAllValues]
        rfl
  | none =>
      rw [hsort] at hlook
      constructor
      · rw [List.map_append, hkeep, List.map_singleton, sortOf_concat, ← hlook, if_pos rfl]
        rfl
      · intro labels
        show (d.sorts ++ [(r.2, r.1)]).lookup labels = _
        rw [List.lookup_append, h.sorts, sortOf_concat]
        by_cases hlabels : r.2 = labels
        · simp [hlabels]
        · have hbeq : (labels == r.2) = false := beq_false_of_ne fun heq => hlabels heq.symm
          rw [if_neg hlabels, List.lookup_cons, hbeq]
          rfl
      · rw [List.map_append, ← h.setNames]
        rfl
      · rw [List.map_append, List.sum_append, ← h.nAllValues]
        rfl

end DomainParse

/-! ## The whole file -/

namespace DomainParse

theorem good_concat_iff {rs : List (Str × List Str)} {r : Str × List Str} :
    Good (rs ++ [r]) ↔ Good rs ∧ r.1 ∉ rs.map Prod.fst ∧ r.2 ≠ [] := by
  constructor
  · intro h
    have hnames := h.names
    rw [List.map_append, List.map_singleton, List.nodup_append] at hnames
    have hlast : r ∈ rs ++ [r] := List.mem_append_right rs (List.mem_singleton_self r)
    refine ⟨⟨hnames.1, fun r' hr' => h.labels r' (List.mem_append_left _ hr')⟩, ?_, h.labels r hlast⟩
    intro hmem
    exact hnames.2.2 r.1 hmem r.1 (List.mem_singleton_self _) rfl
  · rintro ⟨h, hfresh, hne⟩
    constructor
    · rw [List.map_append, List.map_singleton, List.nodup_append]
      refine ⟨h.names, List.nodup_singleton _, ?_⟩
      rintro name hname _ hlast rfl
      rw [List.mem_singleton] at hlast
      exact hfresh (hlast ▸ hname)
    · intro r' hr'
      rcases List.mem_append.mp hr' with hr' | hr'
      · exact h.labels r' hr'
      · rwa [List.mem_singleton.mp hr']

/-- **The first bad line** of the file fails the check `e`. -/
def FirstBad (rs : List (Str × List Str)) (e : DomainFault) : Prop :=
  ∃ pre r post, rs = pre ++ r :: post ∧ Good pre ∧
    ((e = .duplicate r.1 ∧ r.1 ∈ pre.map Prod.fst) ∨
      (e = .noLabels ∧ r.1 ∉ pre.map Prod.fst ∧ r.2 = []))

theorem good_or_firstBad (rs : List (Str × List Str)) : Good rs ∨ ∃ e, FirstBad rs e := by
  induction rs using List.reverseRecOn with
  | nil => exact .inl ⟨List.nodup_nil, by simp⟩
  | append_singleton rs r ih =>
      rcases ih with hgood | ⟨e, pre, r', post, rfl, hpre, hbad⟩
      · by_cases hdup : r.1 ∈ rs.map Prod.fst
        · exact .inr ⟨_, rs, r, [], rfl, hgood, .inl ⟨rfl, hdup⟩⟩
        · by_cases hne : r.2 = []
          · exact .inr ⟨_, rs, r, [], rfl, hgood, .inr ⟨rfl, hdup, hne⟩⟩
          · exact .inl (good_concat_iff.mpr ⟨hgood, hdup, hne⟩)
      · exact .inr ⟨e, pre, r', post ++ [r], by simp, hpre, hbad⟩

/-- **A file without a bad line** is read. -/
theorem Good.parse {rs : List (Str × List Str)} (h : Good rs) :
    ∃ d, rs.foldlM parseRow {} = .ok d ∧ Reads rs d := by
  induction rs using List.reverseRecOn with
  | nil => exact ⟨{}, rfl, reads_nil⟩
  | append_singleton rs r ih =>
      obtain ⟨hgood, hfresh, hne⟩ := good_concat_iff.mp h
      obtain ⟨d, hd, hreads⟩ := ih hgood
      have hrow : parseRow d r = .ok (d.declare r.1 r.2) := by
        rw [parseRow, hreads.setNames, if_neg (mt List.contains_iff_mem.mp hfresh), if_neg hne]
      refine ⟨d.declare r.1 r.2, ?_, hreads.declare r⟩
      rw [List.foldlM_append, hd, ok_bind, List.foldlM_cons, hrow]
      rfl

/-- **A file with a bad line** fails the check of the first of them. -/
theorem FirstBad.parse {rs : List (Str × List Str)} {e : DomainFault} (h : FirstBad rs e) :
    rs.foldlM parseRow {} = .error e := by
  obtain ⟨pre, r, post, rfl, hgood, hbad⟩ := h
  obtain ⟨d, hd, hreads⟩ := hgood.parse
  have hrow : parseRow d r = .error e := by
    unfold parseRow
    rw [hreads.setNames]
    rcases hbad with ⟨rfl, hdup⟩ | ⟨rfl, hfresh, hne⟩
    · rw [if_pos (List.contains_iff_mem.mpr hdup)]
    · rw [if_neg (mt List.contains_iff_mem.mp hfresh), if_pos hne]
  rw [List.foldlM_append, hd, ok_bind, List.foldlM_cons, hrow]
  rfl

theorem reads_of_parse {text : Str} {d : DomainParse} (h : parse text = .ok d) :
    Good (rows text) ∧ Reads (rows text) d := by
  rw [parse_eq] at h
  rcases good_or_firstBad (rows text) with hgood | ⟨e, hbad⟩
  · obtain ⟨d', hd', hreads⟩ := hgood.parse
    obtain rfl := Except.ok.inj (hd'.symm.trans h)
    exact ⟨hgood, hreads⟩
  · cases hbad.parse.symm.trans h

theorem exists_parse_iff (text : Str) : (∃ d, parse text = .ok d) ↔ Good (rows text) := by
  constructor
  · rintro ⟨d, hd⟩
    exact (reads_of_parse hd).1
  · intro hgood
    obtain ⟨d, hd, -⟩ := hgood.parse
    exact ⟨d, (parse_eq text).trans hd⟩

end DomainParse

/-! ## The domain -/

/-- The option as the rest of the program sees it. -/
def DomainEntry.varDomain (e : DomainEntry) : VarDomain :=
  { name := String.ofList e.name, labels := e.labels.map String.ofList }

namespace DomainParse

theorem map_ofList_inj {l l' : List Str} :
    l.map String.ofList = l'.map String.ofList ↔ l = l' :=
  (List.map_injective_iff.mpr fun _ _ h => String.ofList_injective h).eq_iff

section Read

variable {rs : List (Str × List Str)} {d : DomainParse}

theorem Reads.mem_vars (h : Reads rs d) {e : DomainEntry} (he : e ∈ d.vars) :
    (e.name, e.labels) ∈ rs ∧ sortOf rs e.labels = some e.zsort := by
  rw [h.vars] at he
  obtain ⟨r, hr, rfl⟩ := List.mem_map.mp he
  obtain ⟨name, hname⟩ := sortOf_isSome hr
  refine ⟨hr, ?_⟩
  show sortOf rs r.2 = some ((sortOf rs r.2).getD [])
  rw [hname]
  rfl

theorem mem_of_sortOf {labels : List Str} {name : Str} (h : sortOf rs labels = some name) :
    (name, labels) ∈ rs := by
  obtain ⟨r, hfind, rfl⟩ := Option.map_eq_some_iff.mp h
  have hlabels : r.2 = labels := by simpa using List.find?_some hfind
  rw [← hlabels]
  exact List.mem_of_find?_eq_some hfind

/-- **Sorts and label vectors are one**: because the names differ. -/
theorem Reads.zsort_eq_iff (h : Reads rs d) (hgood : Good rs) {e e' : DomainEntry}
    (he : e ∈ d.vars) (he' : e' ∈ d.vars) : e.zsort = e'.zsort ↔ e.labels = e'.labels := by
  obtain ⟨-, hsort⟩ := h.mem_vars he
  obtain ⟨-, hsort'⟩ := h.mem_vars he'
  constructor
  · intro heq
    rw [heq] at hsort
    have hsame := List.inj_on_of_nodup_map hgood.names (mem_of_sortOf hsort) (mem_of_sortOf hsort') rfl
    exact (Prod.mk.inj hsame).2
  · intro heq
    rw [heq] at hsort
    exact Option.some.inj (hsort.symm.trans hsort')

/-- **What is read is a domain**, with the sorts that `zsortName` says. -/
theorem Reads.exists_domain (h : Reads rs d) (hgood : Good rs)
    (hlen : (d.vars.length : ℤ) ≤ intMax) :
    ∃ dom : Domain, dom.vars = d.vars.map DomainEntry.varDomain ∧
      dom.nAllValues = d.nAllValues ∧
      ∀ e ∈ d.vars, Z3Text.zsortName dom e.varDomain = String.ofList e.zsort := by
  have hpos : ∀ v ∈ d.vars.map DomainEntry.varDomain, 0 < v.nValues := by
    intro v hv
    obtain ⟨e, he, rfl⟩ := List.mem_map.mp hv
    have hne : e.labels ≠ [] := hgood.labels _ (h.mem_vars he).1
    rw [VarDomain.nValues, DomainEntry.varDomain, List.length_map]
    exact List.length_pos_iff.mpr hne
  have hsum : ((d.vars.map DomainEntry.varDomain).map VarDomain.nValues).sum = d.nAllValues := by
    rw [h.nAllValues, h.vars, List.map_map, List.map_map]
    congr 1
    apply List.map_congr_left
    intro r _
    exact List.length_map _
  refine ⟨⟨d.vars.map DomainEntry.varDomain, hpos, by rwa [List.length_map]⟩, rfl, hsum, ?_⟩
  intro e he
  obtain ⟨-, hsort⟩ := h.mem_vars he
  obtain ⟨r, hfind, hname⟩ := Option.map_eq_some_iff.mp hsort
  have hfind' : (d.vars.map DomainEntry.varDomain).find?
      (fun w => decide (w.labels = e.varDomain.labels)) =
        some ⟨String.ofList r.1, r.2.map String.ofList⟩ := by
    rw [h.vars, List.map_map, List.find?_map]
    have hpred : ((fun w : VarDomain => decide (w.labels = e.varDomain.labels)) ∘
        DomainEntry.varDomain ∘ fun r : Str × List Str =>
          (⟨r.1, r.2, (sortOf rs r.2).getD []⟩ : DomainEntry)) =
        fun r => decide (r.2 = e.labels) := by
      funext r
      exact decide_eq_decide.mpr map_ofList_inj
    rw [hpred, hfind]
    rfl
  rw [Z3Text.zsortName, hfind', ← hname]
  rfl

end Read

end DomainParse

/-! ## Writing -/

/-- The options `rs` are laid out in the lines `ls`, with comments, blank lines and
blanks between the words as one likes. -/
inductive Laid : List (Str × List Str) → List Str → Prop
  | nil : Laid [] []
  | comment {rs : List (Str × List Str)} {ls : List Str} {l : Str} (noEndl : '\n' ∉ l)
      (silent : ∀ w ∈ (words isSpace [] l).head?, isComment w = true) (rest : Laid rs ls) :
      Laid rs (l :: ls)
  | option {rs : List (Str × List Str)} {ls : List Str} {r : Str × List Str} {l : Str}
      {comment : List Str} (noEndl : '\n' ∉ l)
      (spaced : Spaced isSpace (r.1 :: (r.2 ++ comment)) l) (name : isComment r.1 = false)
      (labels : ∀ v ∈ r.2, isComment v = false)
      (ends : ∀ w ∈ comment.head?, isComment w = true) (rest : Laid rs ls) : Laid (r :: rs) (l :: ls)

namespace Laid

variable {rs : List (Str × List Str)} {ls : List Str}

theorem noEndl (h : Laid rs ls) : ∀ l ∈ ls, '\n' ∉ l := by
  induction h with
  | nil => simp
  | comment hl _ _ ih => exact List.forall_mem_cons.mpr ⟨hl, ih⟩
  | option hl _ _ _ _ _ ih => exact List.forall_mem_cons.mpr ⟨hl, ih⟩

theorem filterMap_row (h : Laid rs ls) : ls.filterMap row = rs := by
  induction h with
  | nil => rfl
  | @comment rs ls l _ hsilent _ ih =>
      have hrow : row l = none := by
        unfold row
        cases hw : words isSpace [] l with
        | nil => rfl
        | cons w ws => exact if_pos (hsilent w (by rw [hw]; rfl))
      rw [List.filterMap_cons, hrow, ih]
  | @option rs ls r l comment _ hspaced hname hlabels hends _ ih =>
      have htake : (r.2 ++ comment).takeWhile (fun val => !isComment val) = r.2 := by
        rw [List.takeWhile_append_of_pos (by simpa using hlabels)]
        cases comment with
        | nil => exact List.append_nil _
        | cons w comment =>
            rw [List.takeWhile_cons_of_neg (by simp [hends w rfl]), List.append_nil]
      have hrow : row l = some r := by
        unfold row
        rw [hspaced.words_eq]
        dsimp only
        rw [if_neg (by simp [hname]), htake]
      rw [List.filterMap_cons, hrow, ih]

theorem rows_eq (h : Laid rs ls) : rows (ls.flatMap (· ++ ['\n'])) = rs := by
  have hlines := lines_flatMap_append h.noEndl []
  rw [List.append_nil] at hlines
  rw [rows, hlines, show lines '\n' [] [] = [] from rfl, List.append_nil, h.filterMap_row]

end Laid

/-! ## The parser -/

namespace DomainParse

/-- **The parser of domain files.**  A file is read exactly when its names differ
and every option has labels, a file that is not read fails the check of its first
bad line, and what is read is a domain with the options of the file, where two
options have the same sort when they have the same labels. -/
theorem parse_exact (text : Str) :
    ((∃ d, parse text = .ok d) ↔ Good (rows text)) ∧
      (∀ e, parse text = .error e ↔ FirstBad (rows text) e) ∧
      ∀ d, parse text = .ok d → Reads (rows text) d ∧
        (∀ e ∈ d.vars, ∀ e' ∈ d.vars, e.zsort = e'.zsort ↔ e.labels = e'.labels) ∧
        ((d.vars.length : ℤ) ≤ intMax → ∃ dom : Domain,
          dom.vars = d.vars.map DomainEntry.varDomain ∧ dom.nAllValues = d.nAllValues ∧
          ∀ e ∈ d.vars, Z3Text.zsortName dom e.varDomain = String.ofList e.zsort) := by
  refine ⟨exists_parse_iff text, fun e => ⟨?_, ?_⟩, ?_⟩
  · intro herror
    rw [parse_eq] at herror
    rcases good_or_firstBad (rows text) with hgood | ⟨e', hbad⟩
    · obtain ⟨d, hd, -⟩ := hgood.parse
      cases hd.symm.trans herror
    · obtain rfl := Except.error.inj (hbad.parse.symm.trans herror)
      exact hbad
  · intro hbad
    rw [parse_eq]
    exact hbad.parse
  · intro d hd
    obtain ⟨hgood, hreads⟩ := reads_of_parse hd
    exact ⟨hreads, fun e he e' he' => hreads.zsort_eq_iff hgood he he',
      hreads.exists_domain hgood⟩

/-- **Every layout is read back**, when the options may stand in one file. -/
theorem parse_laid {rs : List (Str × List Str)} {ls : List Str} (h : Laid rs ls) (hgood : Good rs) :
    ∃ d, parse (ls.flatMap (· ++ ['\n'])) = .ok d ∧
      d.vars.map (fun e => (e.name, e.labels)) = rs := by
  obtain ⟨d, hd, hreads⟩ := hgood.parse
  refine ⟨d, ?_, ?_⟩
  · rw [parse_eq, h.rows_eq, hd]
  · rw [hreads.vars, List.map_map]
    exact List.map_id rs

end DomainParse

end GenTree
