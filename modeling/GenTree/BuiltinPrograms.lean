import GenTree.DomainFile

/-!
# Builtin programs

A builtin program is a function under test that is compiled into the tool.  The
tool looks it up twice, by two names that it makes from one stem: `Domain::Domain`
by `<stem>.dom`, whose text it writes and parses again, and `ProgramRunner` by
`<stem>.exe`.

* `normalizeName_dom`, `normalizeName_exe` — both names are of the same program.
* `getDomStr_ok` — the text of its domain.
* `open_builtin_exact` — when the domain is read, and that every configuration of
  it passes the check on the number of values in the program.
-/

namespace GenTree

open Outcome TextLines InputStream

/-! ## The code -/

/-- `Program`, without its source: `fn` is the code on the array of values. -/
structure Program where
  name : Str
  vars : Str
  dom : List ℤ
  fn : List ℤ → List Str

/-- Why a builtin program is not found, written or run. -/
inductive BuiltinFault
  /-- `"Builtin runner {} not found"`. -/
  | notFound (name : Str)
  /-- `dom[i]` behind the end. -/
  | outOfRange
  /-- `CHECK_LE(i, dom.size())`. -/
  | tooManyVars
  /-- `CHECK_EQ(_vector_values.size(), _array_values.size())`. -/
  | arraySize
  /-- `CHECK_EQ(_mapprog().count(p.name), 0)`. -/
  | registered
  /-- `filepath.at(0)` of an empty path. -/
  | emptyPath
  /-- `CHECKF(ifs_dom, "Bad dom input file: {}", filepath)`. -/
  | badFile (filepath : Str)
  /-- `Domain::parse`. -/
  | parse (e : DomainFault)
  deriving DecidableEq

/-- The function that `FN` makes of the code: it copies the values into an array of
`NUMARGS(doms)` elements. -/
def Program.call (prog : Program) (values : List ℤ) : Except BuiltinFault (List Str) := do
  check (values.length = prog.dom.length) .arraySize
  .ok (prog.fn values)

namespace Builtin

/-- `normalize_name`. -/
def normalizeName (s : Str) : Str :=
  let s := Z3Text.replaceAll s ['@'] []
  let s := Z3Text.replaceAll s ['.', 'd', 'o', 'm'] []
  Z3Text.replaceAll s ['.', 'e', 'x', 'e'] []

/-- `register_builtin_program`: `_mapprog()` is a list of pairs with different keys. -/
def registerBuiltinProgram (mapprog : List (Str × Program)) (p : Program) :
    Except BuiltinFault (List (Str × Program)) := do
  check ((mapprog.lookup p.name).isNone) .registered
  .ok (mapprog ++ [(p.name, p)])

/-- `normalize_name`, `check_name` and `_mapprog()[name]`. -/
def find (mapprog : List (Str × Program)) (name : Str) : Except BuiltinFault Program :=
  let name := normalizeName name
  match mapprog.lookup name with
  | none => .error (.notFound name)
  | some prog => .ok prog

/-- What `get_dom_str` writes for one option. -/
def domRow (vname : Str) (n : ℤ) : Str :=
  vname ++ [' '] ++ (List.range n.toNat).flatMap (fun j : ℕ => showInt j ++ [' ']) ++ ['\n']

/-- The loop `while (ss >> vname)`. -/
def writeRows (dom : List ℤ) (i : ℕ) (sout : Str) (ss : Stream Char) : Except BuiltinFault Str :=
  match _h : ss.word isSpace with
  | (none, _) => .ok sout
  | (some vname, ss') =>
      match dom[i]? with
      | none => .error .outOfRange
      | some n => do
          check (i + 1 ≤ dom.length) .tooManyVars
          writeRows dom (i + 1) (sout ++ domRow vname n) ss'
termination_by ss.rest.length
decreasing_by exact Stream.length_word_lt _h

/-- `get_dom_str`. -/
def getDomStr (mapprog : List (Str × Program)) (name : Str) : Except BuiltinFault Str := do
  let prog ← find mapprog name
  let vars := prog.vars.map fun c => if c = ',' then '\n' else c
  writeRows prog.dom 0 [] { rest := vars }

/-- `get_fn`. -/
def getFn (mapprog : List (Str × Program)) (name : Str) :
    Except BuiltinFault (List ℤ → Except BuiltinFault (List Str)) := do
  let prog ← find mapprog name
  .ok (Program.call prog)

/-- `Domain::Domain`, where `dom` is the option of this name and `files` are the files
that can be opened. -/
def openDomain (mapprog : List (Str × Program)) (files : Str → Option Str) (dom : Option Str)
    (filestem : Str) : Except BuiltinFault DomainParse :=
  let filepath := dom.getD (filestem ++ ['.', 'd', 'o', 'm'])
  match filepath with
  | [] => .error .emptyPath
  | c :: _ =>
      if c = '@' then do
        let text ← getDomStr mapprog filepath
        (DomainParse.parse text).mapError BuiltinFault.parse
      else
        match files filepath with
        | none => .error (.badFile filepath)
        | some text => (DomainParse.parse text).mapError BuiltinFault.parse

/-- `ProgramRunner` with the builtin runner, where `target` is the option of this
name. -/
def openFn (mapprog : List (Str × Program)) (target : Option Str) (filestem : Str) :
    Except BuiltinFault (List ℤ → Except BuiltinFault (List Str)) :=
  getFn mapprog (target.getD (filestem ++ ['.', 'e', 'x', 'e']))

end Builtin

/-! ## Names -/

section Replace

variable {src dst : Str}

theorem prefix_of_prefix_append {s t : Str} (ht : ∀ c ∈ t.head?, c ∉ src.tail) {c : Char}
    (h : src <+: c :: (s ++ t)) : src <+: c :: s := by
  rw [← List.cons_append] at h
  rcases List.prefix_or_prefix_of_prefix h (List.prefix_append (c :: s) t) with h' | ⟨r, rfl⟩
  · exact h'
  · rw [List.prefix_append_right_inj] at h
    cases r with
    | nil =>
        rw [List.append_nil]
    | cons b r =>
        obtain ⟨t', rfl⟩ := h
        exact absurd (List.mem_append_right s List.mem_cons_self) (ht b rfl)

/-- **No occurrence straddles** the end of `s` when `t` begins with a character that
`src` has only in front. -/
theorem replaceFrom_append {s t : Str} (ht : ∀ c ∈ t.head?, c ∉ src.tail) {skip : ℕ}
    (hskip : skip ≤ s.length) :
    Z3Text.replaceFrom src dst skip (s ++ t) =
      Z3Text.replaceFrom src dst skip s ++ Z3Text.replaceFrom src dst 0 t := by
  induction s generalizing skip with
  | nil =>
      rw [Nat.le_zero.mp hskip]
      rfl
  | cons c s ih =>
      rw [List.length_cons] at hskip
      cases skip with
      | succ skip =>
          rw [List.cons_append, Z3Text.replaceFrom, Z3Text.replaceFrom]
          exact ih (by omega)
      | zero =>
          rw [List.cons_append, Z3Text.replaceFrom, Z3Text.replaceFrom]
          have hsrc : src.isPrefixOf (c :: (s ++ t)) = src.isPrefixOf (c :: s) := by
            rw [Bool.eq_iff_iff, List.isPrefixOf_iff_prefix, List.isPrefixOf_iff_prefix]
            constructor
            · intro h
              exact prefix_of_prefix_append ht h
            · intro h
              exact h.trans (List.prefix_append (c :: s) t)
          rw [hsrc]
          split
          · next h =>
              have hlen := (List.isPrefixOf_iff_prefix.mp h).length_le
              rw [List.length_cons] at hlen
              rw [ih (by omega), List.append_assoc]
          · rw [ih (Nat.zero_le _), List.cons_append]

theorem replaceFrom_skip (s t : Str) :
    Z3Text.replaceFrom src dst s.length (s ++ t) = Z3Text.replaceFrom src dst 0 t := by
  induction s with
  | nil => rfl
  | cons c s ih => exact ih

/-- The text itself is replaced. -/
theorem replaceFrom_self (hne : src ≠ []) : Z3Text.replaceFrom src dst 0 src = dst := by
  obtain ⟨c, s, rfl⟩ := List.exists_cons_of_ne_nil hne
  have hskip := @replaceFrom_skip (c :: s) dst s []
  rw [List.append_nil] at hskip
  rw [Z3Text.replaceFrom, if_pos (List.isPrefixOf_iff_prefix.mpr (List.prefix_refl _)),
    List.length_cons, Nat.add_sub_cancel, hskip]
  exact List.append_nil dst

theorem replaceAll_append {s t : Str} (ht : ∀ c ∈ t.head?, c ∉ src.tail) :
    Z3Text.replaceAll (s ++ t) src dst =
      Z3Text.replaceAll s src dst ++ Z3Text.replaceAll t src dst := by
  unfold Z3Text.replaceAll
  split
  · rfl
  · exact replaceFrom_append ht (Nat.zero_le _)

/-- An ending that is taken away may as well not be there. -/
theorem replaceAll_append_self {c : Char} {w : Str} (hc : c ∉ w) (s : Str) :
    Z3Text.replaceAll (s ++ c :: w) (c :: w) [] = Z3Text.replaceAll s (c :: w) [] := by
  have hne : c :: w ≠ [] := List.cons_ne_nil c w
  rw [replaceAll_append (by simpa using hc)]
  unfold Z3Text.replaceAll
  rw [if_neg hne, if_neg hne, replaceFrom_self hne, List.append_nil]

end Replace

namespace Builtin

theorem normalizeName_dom (s : Str) :
    normalizeName (s ++ ['.', 'd', 'o', 'm']) = normalizeName s := by
  unfold normalizeName
  dsimp only
  rw [@replaceAll_append ['@'] [] s ['.', 'd', 'o', 'm'] (by simp),
    show Z3Text.replaceAll ['.', 'd', 'o', 'm'] ['@'] [] = ['.', 'd', 'o', 'm'] from rfl,
    replaceAll_append_self (by decide)]

theorem normalizeName_exe (s : Str) :
    normalizeName (s ++ ['.', 'e', 'x', 'e']) = normalizeName s := by
  unfold normalizeName
  dsimp only
  rw [@replaceAll_append ['@'] [] s ['.', 'e', 'x', 'e'] (by simp),
    show Z3Text.replaceAll ['.', 'e', 'x', 'e'] ['@'] [] = ['.', 'e', 'x', 'e'] from rfl,
    @replaceAll_append ['.', 'd', 'o', 'm'] [] _ ['.', 'e', 'x', 'e'] (by simp),
    show Z3Text.replaceAll ['.', 'e', 'x', 'e'] ['.', 'd', 'o', 'm'] [] = ['.', 'e', 'x', 'e'] by
      decide,
    replaceAll_append_self (by decide)]

/-! ## The text of a domain -/

/-- The names of the options. -/
def varNames (p : Program) : List Str :=
  words isSpace [] (p.vars.map fun c => if c = ',' then '\n' else c)

/-- The labels of an option with `n` values. -/
def valueLabels (n : ℤ) : List Str := (List.range n.toNat).map fun j : ℕ => showInt j

theorem showInt_noBlank (i : ℤ) : ∀ c ∈ showInt i, isSpace c = false := by
  intro c hc
  by_contra hblank
  rw [Bool.not_eq_false] at hblank
  refine absurd hc (notMem_showInt ?_ ?_ i)
  · by_contra hdigit
    rw [Bool.not_eq_false] at hdigit
    simp only [isSpace, Bool.or_eq_true, decide_eq_true_eq] at hblank
    rcases hblank with ((((rfl | rfl) | rfl) | rfl) | rfl) | rfl <;> exact absurd hdigit (by decide)
  · rintro rfl
    exact absurd hblank (by decide)

theorem domRow_eq (vname : Str) (n : ℤ) :
    domRow vname n = (vname :: valueLabels n).flatMap (· ++ [' ']) ++ ['\n'] := by
  rw [domRow, List.flatMap_cons, valueLabels, List.flatMap_map]

theorem isComment_showInt (i : ℤ) : isComment (showInt i) = false := by
  apply decide_eq_false
  intro h
  exact notMem_showInt (by decide) (by decide) i (List.mem_of_mem_head? h)

/-- **What is written is laid out**, when no name looks like a comment. -/
theorem laid_rows {vs : List Str} (hne : ∀ v ∈ vs, v ≠ [])
    (hblank : ∀ v ∈ vs, ∀ c ∈ v, isSpace c = false) (hname : ∀ v ∈ vs, isComment v = false)
    (ns : List ℤ) :
    Laid ((vs.zip ns).map fun q => (q.1, valueLabels q.2))
      ((vs.zip ns).map fun q => (q.1 :: valueLabels q.2).flatMap (· ++ [' '])) := by
  have hall : ∀ q ∈ vs.zip ns, q.1 ∈ vs := fun q hq => (List.of_mem_zip hq).1
  generalize vs.zip ns = qs at hall ⊢
  induction qs with
  | nil => exact .nil
  | cons q qs ih =>
      rw [List.forall_mem_cons] at hall
      have hword : ∀ w ∈ q.1 :: valueLabels q.2, w ≠ [] ∧ ∀ c ∈ w, isSpace c = false := by
        rw [List.forall_mem_cons]
        refine ⟨⟨hne _ hall.1, hblank _ hall.1⟩, ?_⟩
        intro w hw
        obtain ⟨j, -, rfl⟩ := List.mem_map.mp hw
        exact ⟨showInt_ne_nil _, showInt_noBlank _⟩
      refine @Laid.option _ _ (q.1, valueLabels q.2) _ [] ?_ ?_ (hname _ hall.1) ?_ (by simp)
        (ih hall.2)
      · intro hmem
        obtain ⟨w, hw, hin⟩ := List.mem_flatMap.mp hmem
        rcases List.mem_append.mp hin with hin | hin
        · exact absurd ((hword w hw).2 _ hin) (by decide)
        · exact absurd hin (by decide)
      · rw [spaced_iff, List.append_nil]
        exact words_flatMap (fun w hw => (hword w hw).1) (fun w hw => (hword w hw).2) rfl (by simp)
      · intro w hw
        obtain ⟨j, -, rfl⟩ := List.mem_map.mp hw
        exact isComment_showInt _

theorem writeRows_eq {dom : List ℤ} {vs : List Str} {rest : Str} {ss : Stream Char}
    (h : ss.At rest) (hw : words isSpace [] rest = vs) (i : ℕ) (hlen : i + vs.length ≤ dom.length)
    (sout : Str) : writeRows dom i sout ss =
      .ok (sout ++ (vs.zip (dom.drop i)).flatMap fun q => domRow q.1 q.2) := by
  induction vs generalizing rest ss i sout with
  | nil =>
      have hnone := h.word_of_words_nil hw
      rw [writeRows]
      split
      · rw [List.zip_nil_left, List.flatMap_nil, List.append_nil]
      · next hword =>
          rw [hword] at hnone
          cases hnone
  | cons v vs ih =>
      obtain ⟨rest', hword, hws⟩ := h.word_of_words hw
      rw [List.length_cons] at hlen
      have hi : i < dom.length := by omega
      rw [writeRows]
      split
      · next hnone =>
          rw [hword] at hnone
          cases hnone
      · next hsome =>
          rw [hword, Prod.mk.injEq, Option.some.injEq] at hsome
          obtain ⟨rfl, rfl⟩ := hsome
          rw [List.getElem?_eq_getElem hi, List.drop_eq_getElem_cons hi, List.zip_cons_cons,
            List.flatMap_cons]
          dsimp only
          rw [check, if_pos (by omega), ok_bind, ih (Stream.at_leave rest') hws (i + 1) (by omega),
            List.append_assoc]

end Builtin

/-! ## The registered programs -/

theorem mapError_eq_ok_iff {ε ε' α : Type} {x : Except ε α} {f : ε → ε'} {a : α} :
    x.mapError f = .ok a ↔ x = .ok a := by
  cases x <;> simp [Except.mapError]

/-- What the compiler asks of a program: the names are bound to the elements of the
array, so there is one for each, and they are identifiers. -/
structure Program.Compiles (p : Program) : Prop where
  vars : (Builtin.varNames p).length = p.dom.length
  identifier : ∀ v ∈ Builtin.varNames p, isComment v = false

namespace Builtin

theorem lookup_map_name {ps : List Program} (h : (ps.map Program.name).Nodup) {p : Program}
    (hp : p ∈ ps) : (ps.map fun p => (p.name, p)).lookup p.name = some p := by
  induction ps with
  | nil => cases hp
  | cons q ps ih =>
      rw [List.map_cons, List.nodup_cons] at h
      rcases List.mem_cons.mp hp with rfl | hp
      · simp
      · have hne : p.name ≠ q.name := fun heq => h.1 (heq ▸ List.mem_map_of_mem hp)
        rw [List.map_cons, List.lookup_cons, beq_false_of_ne hne]
        exact ih h.2 hp

theorem lookup_map_name_none {ps : List Program} {name : Str}
    (h : (ps.map fun p => (p.name, p)).lookup name = none) : name ∉ ps.map Program.name := by
  induction ps with
  | nil => simp
  | cons q ps ih =>
      rw [List.map_cons, List.lookup_cons] at h
      cases hbeq : name == q.name with
      | true =>
          rw [hbeq] at h
          cases h
      | false =>
          rw [hbeq] at h
          rw [List.map_cons, List.mem_cons, not_or]
          exact ⟨ne_of_beq_false hbeq, ih h⟩

/-- **Registering keeps the names apart.** -/
theorem register_ok {ps : List Program} {mapprog : List (Str × Program)}
    (h : ps.foldlM registerBuiltinProgram [] = .ok mapprog) :
    mapprog = ps.map (fun p => (p.name, p)) ∧ (ps.map Program.name).Nodup := by
  induction ps using List.reverseRecOn generalizing mapprog with
  | nil =>
      cases h
      exact ⟨rfl, List.nodup_nil⟩
  | append_singleton ps p ih =>
      rw [List.foldlM_append] at h
      obtain ⟨m, hm, hlast⟩ := bind_eq_ok.mp h
      obtain ⟨rfl, hnodup⟩ := ih hm
      rw [List.foldlM_cons] at hlast
      obtain ⟨m', hm', hend⟩ := bind_eq_ok.mp hlast
      cases hend
      unfold registerBuiltinProgram at hm'
      obtain ⟨_, hcheck, hok⟩ := bind_eq_ok.mp hm'
      cases hok
      have hnone := check_eq_ok.mp hcheck
      rw [Option.isNone_iff_eq_none] at hnone
      refine ⟨by rw [List.map_append, List.map_singleton], ?_⟩
      rw [List.map_append, List.map_singleton]
      rw [← List.concat_eq_append]
      exact hnodup.concat (lookup_map_name_none hnone)

/-- The two lookups find the same program. -/
theorem find_stem {ps : List Program} {mapprog : List (Str × Program)}
    (hreg : ps.foldlM registerBuiltinProgram [] = .ok mapprog) {p : Program} (hp : p ∈ ps)
    {stem : Str} (hname : normalizeName stem = p.name) :
    find mapprog (stem ++ ['.', 'd', 'o', 'm']) = .ok p ∧
      find mapprog (stem ++ ['.', 'e', 'x', 'e']) = .ok p := by
  obtain ⟨rfl, hnodup⟩ := register_ok hreg
  have hlook := lookup_map_name hnodup hp
  constructor
  · rw [find, normalizeName_dom, hname, hlook]
  · rw [find, normalizeName_exe, hname, hlook]

/-- The options of the program, with their labels. -/
def options (p : Program) : List (Str × List Str) :=
  ((varNames p).zip p.dom).map fun q => (q.1, valueLabels q.2)

theorem valueLabels_ne_nil_iff (n : ℤ) : valueLabels n ≠ [] ↔ 0 < n := by
  rw [valueLabels, Ne, List.map_eq_nil_iff, List.range_eq_nil]
  omega

theorem good_options_iff {p : Program} (hp : p.Compiles) :
    DomainParse.Good (options p) ↔ (varNames p).Nodup ∧ ∀ n ∈ p.dom, 0 < n := by
  have hnames : (options p).map Prod.fst = varNames p := by
    rw [options, List.map_map]
    exact List.map_fst_zip hp.vars.le
  have hdims : ((varNames p).zip p.dom).map Prod.snd = p.dom := List.map_snd_zip hp.vars.ge
  constructor
  · intro h
    refine ⟨hnames ▸ h.names, ?_⟩
    intro n hn
    rw [← hdims] at hn
    obtain ⟨q, hq, rfl⟩ := List.mem_map.mp hn
    exact (valueLabels_ne_nil_iff q.2).mp (h.labels _ (List.mem_map_of_mem hq))
  · rintro ⟨hnodup, hpos⟩
    refine ⟨hnames.symm ▸ hnodup, ?_⟩
    intro r hr
    obtain ⟨q, hq, rfl⟩ := List.mem_map.mp hr
    exact (valueLabels_ne_nil_iff q.2).mpr (hpos q.2 (List.of_mem_zip hq).2)

/-- The text of the domain says the options of the program. -/
theorem getDomStr_ok {p : Program} (hp : p.Compiles) {mapprog : List (Str × Program)} {name : Str}
    (hfind : find mapprog name = .ok p) :
    ∃ text, getDomStr mapprog name = .ok text ∧ rows text = options p := by
  have hword : ∀ v ∈ varNames p, v ≠ [] ∧ ∀ c ∈ v, isSpace c = false :=
    (spaced_iff.mpr rfl).forall_mem
  have hlaid : Laid (options p) _ := laid_rows (fun v hv => (hword v hv).1)
    (fun v hv => (hword v hv).2) hp.identifier p.dom
  refine ⟨((varNames p).zip p.dom).flatMap fun q => domRow q.1 q.2, ?_, ?_⟩
  · rw [getDomStr, hfind, ok_bind]
    exact writeRows_eq (Stream.at_mk _) rfl 0 (by rw [Nat.zero_add]; exact hp.vars.le) []
  · rw [← hlaid.rows_eq, List.flatMap_map]
    simp only [domRow_eq]

/-- **Builtin programs.**  Of a stem that begins with `@`, the domain is read exactly
when the names of the program differ and every option has a value, and then it has
the options of the program; and the function that is run with it is that of the same
program, which gets as many values as it asks for. -/
theorem open_builtin_exact {ps : List Program} {mapprog : List (Str × Program)}
    (hreg : ps.foldlM registerBuiltinProgram [] = .ok mapprog) {p : Program} (hp : p ∈ ps)
    (hcompiles : p.Compiles) {stem : Str} (hstem : stem.head? = some '@')
    (hname : normalizeName stem = p.name) (files : Str → Option Str) :
    ((∃ d, openDomain mapprog files none stem = .ok d) ↔
        (varNames p).Nodup ∧ ∀ n ∈ p.dom, 0 < n) ∧
      ∀ d, openDomain mapprog files none stem = .ok d →
        d.vars.map (fun e => (e.name, e.labels)) = options p ∧
        ∃ fn, openFn mapprog none stem = .ok fn ∧
          ∀ values : List ℤ, values.length = d.vars.length → fn values = .ok (p.fn values) := by
  obtain ⟨hdom, hexe⟩ := find_stem hreg hp hname
  obtain ⟨text, htext, hrows⟩ := getDomStr_ok hcompiles hdom
  obtain ⟨stem', rfl⟩ : ∃ stem', stem = '@' :: stem' := List.head?_eq_some_iff.mp hstem
  have hopen : openDomain mapprog files none ('@' :: stem') =
      (DomainParse.parse text).mapError BuiltinFault.parse := by
    unfold openDomain
    rw [Option.getD_none, List.cons_append]
    dsimp only
    rw [if_pos rfl, ← List.cons_append, htext, ok_bind]
  rw [hopen, ← good_options_iff hcompiles, ← hrows]
  refine ⟨?_, ?_⟩
  · rw [← DomainParse.exists_parse_iff]
    exact exists_congr fun d => mapError_eq_ok_iff
  · intro d hd
    obtain ⟨-, hreads⟩ := DomainParse.reads_of_parse (mapError_eq_ok_iff.mp hd)
    have hvars : d.vars.map (fun e => (e.name, e.labels)) = rows text := by
      rw [hreads.vars, List.map_map]
      exact List.map_id _
    refine ⟨hvars, p.call, ?_, ?_⟩
    · rw [openFn, Option.getD_none, getFn, hexe, ok_bind]
    · intro values hvalues
      have hlen := congrArg List.length hvars
      rw [hrows, List.length_map, options, List.length_map, List.length_zip, hcompiles.vars,
        Nat.min_self] at hlen
      rw [Program.call, check, if_pos (hvalues.trans hlen), ok_bind]

/-- `FN(s2, ...)`. -/
def s2 : Program where
  name := ['s', '2']
  vars := ['a', ',', ' ', 'b', ',', ' ', 'c']
  dom := [2, 2, 2]
  fn := fun values => match values with
    | [a, b, c] => if a ≠ 0 ∧ b ≠ 0 ∧ c ≠ 0 then [['L', '1']] else []
    | _ => []

/-- The domain of `@s2` is read, with its three options, and its code is run. -/
theorem open_builtin_exact_s2 :
    ∃ d fn, openDomain [(['s', '2'], s2)] (fun _ => none) none ['@', 's', '2'] = .ok d ∧
      d.vars.map (fun e => (e.name, e.labels)) = options s2 ∧
      openFn [(['s', '2'], s2)] none ['@', 's', '2'] = .ok fn ∧
      ∀ values : List ℤ, values.length = d.vars.length → fn values = .ok (s2.fn values) := by
  have hvars : varNames s2 = [['a'], ['b'], ['c']] := rfl
  have hcompiles : s2.Compiles := by
    refine ⟨rfl, ?_⟩
    rw [hvars]
    decide
  obtain ⟨hread, hexact⟩ := @open_builtin_exact [s2] _ rfl s2 (List.mem_singleton_self s2)
    hcompiles ['@', 's', '2'] rfl rfl fun _ => none
  obtain ⟨d, hd⟩ := hread.mpr ⟨by rw [hvars]; decide, by decide⟩
  obtain ⟨hoptions, fn, hfn, hcall⟩ := hexact d hd
  exact ⟨d, fn, hd, hoptions, hfn, hcall⟩

end Builtin

end GenTree
