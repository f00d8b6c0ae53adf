import GenTree.TreeText
import GenTree.BuildTree

/-!
# Printing and reading trees

The text of a tree depends on its shape only.  `shapeText` writes the format
down once, as a function of the shape and of the flag `last_is_char`;
`Wf.serialize_eq` says that `serialize` emits it, and `deserialize_shapeText`
that `deserialize` reads it back, whatever white space is in front and whatever
follows.

The format is unambiguous because the reader skips white space but never needs
it: a letter ends a number's digits just as a blank does, and after a letter the
next number is set off by a blank.  The invariant that makes this work is that
the text of a node with children ends in a letter.
-/

namespace GenTree

open Outcome

/-! ## Numbers -/

/-- A list of white space. -/
def AllSpace (w : List Char) : Prop := ∀ c ∈ w, isSpace c = true

theorem allSpace_nil : AllSpace [] := fun _ hc => absurd hc List.not_mem_nil

theorem isSpace_of_isDigit {c : Char} (h : c.isDigit = true) : isSpace c = false := by
  by_contra hne
  have hsp : isSpace c = true := by simpa using hne
  simp only [isSpace, Bool.or_eq_true, decide_eq_true_eq] at hsp
  rcases hsp with ((((rfl | rfl) | rfl) | rfl) | rfl) | rfl <;> exact absurd h (by decide)

theorem skipWs_append {w : List Char} (hw : AllSpace w) (s : List Char) :
    skipWs (w ++ s) = skipWs s :=
  List.dropWhile_append_of_pos hw

theorem skipWs_cons {c : Char} (h : isSpace c = false) (s : List Char) :
    skipWs (c :: s) = c :: s := by
  rw [skipWs, List.dropWhile_cons_of_neg (by simp [h])]

theorem skipWs_length_le (s : List Char) : (skipWs s).length ≤ s.length :=
  (List.dropWhile_sublist _).length_le

theorem readSign_of_isDigit {c : Char} (h : c.isDigit = true) (s : List Char) :
    readSign (c :: s) = (false, c :: s) := by
  have hminus : c ≠ '-' := by rintro rfl; exact absurd h (by decide)
  have hplus : c ≠ '+' := by rintro rfl; exact absurd h (by decide)
  unfold readSign
  split
  · next heq => exact absurd (List.cons.inj heq).1 hminus
  · next heq => exact absurd (List.cons.inj heq).1 hplus
  · rfl

/-- **A printed number is read back.**  White space in front is skipped, and any
character that is no digit ends the number. -/
theorem readInt_toDigits {w : List Char} (hw : AllSpace w) {n : ℕ} (hn : (n : ℤ) ≤ intMax)
    {c : Char} (hc : c.isDigit = false) (s : List Char) :
    readInt (w ++ (Nat.toDigits 10 n ++ c :: s)) = ⟨true, some n, c :: s⟩ := by
  have hdigits : ∀ a ∈ Nat.toDigits 10 n, a.isDigit = true := fun a ha =>
    Nat.isDigit_of_mem_toDigits (by decide) (by decide) ha
  have htake : (Nat.toDigits 10 n ++ c :: s).takeWhile Char.isDigit = Nat.toDigits 10 n := by
    rw [List.takeWhile_append_of_pos hdigits, List.takeWhile_cons_of_neg (by simp [hc]),
      List.append_nil]
  have hdrop : (Nat.toDigits 10 n ++ c :: s).dropWhile Char.isDigit = c :: s := by
    rw [List.dropWhile_append_of_pos hdigits, List.dropWhile_cons_of_neg (by simp [hc])]
  have hne : Nat.toDigits 10 n ≠ [] := Nat.toDigits_ne_nil
  have hvalue : Nat.ofDigitChars 10 (Nat.toDigits 10 n) 0 = n := Nat.ofDigitChars_ten_toDigits
  have hskip : skipWs (w ++ (Nat.toDigits 10 n ++ c :: s)) = Nat.toDigits 10 n ++ c :: s ∧
      readSign (Nat.toDigits 10 n ++ c :: s) = (false, Nat.toDigits 10 n ++ c :: s) := by
    rw [skipWs_append hw]
    cases hd : Nat.toDigits 10 n with
    | nil => exact absurd hd hne
    | cons a as =>
        have ha : a.isDigit = true := hdigits a (by rw [hd]; exact List.mem_cons_self ..)
        exact ⟨skipWs_cons (isSpace_of_isDigit ha) _, readSign_of_isDigit ha _⟩
  have hmin : ¬ ((n : ℤ) < -intMax - 1) := by
    have : (0 : ℤ) ≤ intMax := by decide
    omega
  rw [readInt, hskip.1]
  simp only [List.append_eq_nil_iff, reduceCtorEq, and_false, if_false, hskip.2, htake, hdrop, hne,
    hvalue, Bool.false_eq_true, not_lt.mpr hn, hmin]

/-- A letter is no number; it stays in the input. -/
theorem readInt_letter {w : List Char} (hw : AllSpace w) {c : Char} (hc : c = 'H' ∨ c = 'M')
    (s : List Char) : readInt (w ++ c :: s) = ⟨false, some 0, c :: s⟩ := by
  have hskip : skipWs (w ++ c :: s) = c :: s := by
    rw [skipWs_append hw]
    rcases hc with rfl | rfl <;> rfl
  rw [readInt, hskip]
  rcases hc with rfl | rfl <;> rfl

theorem readSign_length_le (s : List Char) : (readSign s).2.length ≤ s.length := by
  unfold readSign
  split <;> simp

/-- A read never gives characters back, and a successful one consumes some. -/
theorem readInt_rest_length (s : List Char) : (readInt s).rest.length ≤ s.length ∧
    ((readInt s).ok = true → (readInt s).rest.length < s.length) := by
  have hskip := skipWs_length_le s
  have hsign := readSign_length_le (skipWs s)
  have hsplit := congrArg List.length
    (List.takeWhile_append_dropWhile (p := Char.isDigit) (l := (readSign (skipWs s)).2))
  rw [List.length_append] at hsplit
  rw [readInt]
  split
  · exact ⟨Nat.zero_le _, by simp⟩
  · cases hs : readSign (skipWs s) with
    | mk neg r =>
        rw [hs] at hsign hsplit
        dsimp only at hsign hsplit ⊢
        by_cases hd : r.takeWhile Char.isDigit = []
        · rw [if_pos hd]
          exact ⟨by dsimp only; omega, by simp⟩
        · have hpos := List.length_pos_iff.mpr hd
          rw [if_neg hd]
          split_ifs <;> dsimp only <;> exact ⟨by omega, fun _ => by omega⟩

/-! ## The text of a shape -/

mutual

/-- The text of a shape, when the last character was a letter or not. -/
def shapeText : DTree ℕ Bool → Bool → List Char
  | .leaf b, _ => [if b then 'H' else 'M']
  | .node x kids, lastIsChar =>
      (if lastIsChar then [' '] else []) ++ (Nat.toDigits 10 x ++ ' ' :: shapeTexts kids false)

/-- The text of the children: it ends in a letter after each of them. -/
def shapeTexts : List (DTree ℕ Bool) → Bool → List Char
  | [], _ => []
  | k :: ks, lastIsChar => shapeText k lastIsChar ++ shapeTexts ks true

end

namespace CNode

variable {dom : Domain} {d : Bool} {depth : ℕ}

theorem showInt_natCast (n : ℕ) : showInt (n : ℤ) = Nat.toDigits 10 n := by
  rw [showInt, if_neg (by omega), Int.toNat_natCast]

theorem serializeChilds_eq {kids : List CNode}
    (hkids : ∀ k ∈ kids, ∀ out last, k.serialize d (out, last) =
      (out ++ shapeText (k.shape d) last, true)) (out : List Char) (last : Bool) :
    serializeChilds d kids (out, last) =
      (out ++ shapeTexts (kids.map (shape d)) last, if kids = [] then last else true) := by
  induction kids generalizing out last with
  | nil => simp [serializeChilds, shapeTexts]
  | cons k ks ih =>
      have hks := ih fun k' hk' => hkids k' (List.mem_cons_of_mem _ hk')
      rw [serializeChilds, hkids k (List.mem_cons_self ..), hks, List.map_cons, shapeTexts,
        List.append_assoc]
      simp

/-- **`serialize` emits the text of the shape**, and the last character is a
letter. -/
theorem Wf.serialize_eq {t : CNode} (h : t.Wf dom depth) (out : List Char) (last : Bool) :
    t.serialize d (out, last) = (out ++ shapeText (t.shape d) last, true) := by
  induction h generalizing out last with
  | leaf hleaf _ =>
      rw [serialize, if_pos hleaf, shape_leaf hleaf, shapeText]
  | @node depth nd kids var hleaf _ hvar hlt hlen _ ih =>
      have hne : kids ≠ [] := by
        rintro rfl
        have := dom.nValues_pos hlt
        simp only [List.length_nil] at hlen
        omega
      rw [serialize, if_neg (by simp [hleaf]), serializeChilds_eq ih, if_neg hne,
        shape_node hleaf hvar, shapeText, hvar, showInt_natCast]
      cases last <;> simp

/-! ## Reading -/

/-- The children are read one after the other. -/
theorem deserializeChilds_eq (read : NodeData → List Char → Except Abort (CNode × List Char))
    (kids : List (DTree ℕ Bool)) (nds : List NodeData) (hlen : nds.length = kids.length)
    (hread : ∀ k ∈ kids, ∀ nd ∈ nds, ∀ w, AllSpace w → ∀ last rest, ∃ t : CNode,
      read nd (w ++ (shapeText k last ++ rest)) = .ok (t, rest) ∧ ∀ d, t.shape d = k)
    {w : List Char} (hw : AllSpace w) (last : Bool) (rest : List Char) (hne : kids ≠ []) :
    ∃ ks : List CNode,
      deserializeChilds read nds (w ++ (shapeTexts kids last ++ rest)) = .ok (ks, rest) ∧
      ∀ d, ks.map (shape d) = kids := by
  induction kids generalizing nds w last with
  | nil => exact absurd rfl hne
  | cons k kids ih =>
      cases nds with
      | nil => simp at hlen
      | cons nd nds =>
          obtain ⟨t, ht, hshape⟩ := hread k (List.mem_cons_self ..) nd (List.mem_cons_self ..) w hw
            last (shapeTexts kids true ++ rest)
          rw [shapeTexts, List.append_assoc, deserializeChilds, ht, ok_bind]
          cases kids with
          | nil =>
              obtain rfl : nds = [] := by simpa using hlen
              exact ⟨[t], by simp [shapeTexts, deserializeChilds], fun d => by simp [hshape]⟩
          | cons k' kids =>
              obtain ⟨ks, hks, hshapes⟩ := ih nds (by simpa using hlen)
                (fun k'' hk'' nd' hnd' => hread k'' (List.mem_cons_of_mem _ hk'') nd'
                  (List.mem_cons_of_mem _ hnd')) allSpace_nil true (by simp)
              refine ⟨t :: ks, ?_, fun d => by rw [List.map_cons, hshape, hshapes]⟩
              rw [List.nil_append] at hks
              simp only [hks, ok_bind]

theorem shapeText_length_le {k : DTree ℕ Bool} {kids : List (DTree ℕ Bool)} (h : k ∈ kids)
    (last last' : Bool) : (shapeText k last').length ≤ (shapeTexts kids last).length + 1 := by
  induction kids generalizing last with
  | nil => exact absurd h List.not_mem_nil
  | cons k' kids ih =>
      rw [shapeTexts, List.length_append]
      rcases List.mem_cons.mp h with rfl | hmem
      · cases k with
        | leaf b => simp [shapeText]
        | node x ks => cases last <;> cases last' <;> simp [shapeText] <;> omega
      · have := ih hmem true
        omega

/-- The reader gives a child the ranges of its parent the other way round. -/
theorem child_isLeaf {nd : NodeData} (h : nd.isLeaf = false) {splitvar : ℤ} {i : ℕ} :
    (NodeData.child { nd with splitvar } i ⟨nd.configs.hit, nd.configs.miss⟩).isLeaf = false := by
  simp only [NodeData.isLeaf, NodeData.child, Bool.or_eq_false_iff] at h ⊢
  exact ⟨h.2, h.1⟩

/-- **`deserialize` reads the text of a shape back**, with any white space in
front, and stops right behind it. -/
theorem deserialize_shapeText {sh : DTree ℕ Bool} (h : sh.Shaped dom.nValues) {last : Bool}
    {fuel : ℕ} (hfuel : (shapeText sh last).length < fuel) {nd : NodeData} {w : List Char}
    (hw : AllSpace w) (hnd : nd.isLeaf = false) (rest : List Char) :
    ∃ t : CNode, deserialize dom fuel nd (w ++ (shapeText sh last ++ rest)) = .ok (t, rest) ∧
      ∀ d, t.shape d = sh := by
  induction h generalizing last fuel nd w rest with
  | leaf b =>
      obtain ⟨fuel, rfl⟩ : ∃ n, fuel = n + 1 := ⟨fuel - 1, by omega⟩
      have hletter : (if b then 'H' else 'M') = 'H' ∨ (if b then 'H' else 'M') = 'M' := by
        cases b <;> simp
      rw [shapeText, List.singleton_append, deserialize, readInt_letter hw hletter]
      cases b <;> exact ⟨_, rfl, fun d => by rw [shape_leaf rfl]; rfl⟩
  | @node x kids hpos hlen _ ih =>
      obtain ⟨fuel, rfl⟩ : ∃ n, fuel = n + 1 := ⟨fuel - 1, by omega⟩
      have hx : x < dom.nVars := Domain.lt_nVars_of_nValues_pos hpos
      have hmax : (x : ℤ) ≤ intMax := by
        have := dom.vars_le
        simp only [Domain.nVars] at hx
        omega
      have hw' : AllSpace (w ++ if last then [' '] else []) := by
        intro c hc
        rcases List.mem_append.mp hc with hc | hc
        · exact hw c hc
        · cases last <;> simp_all [isSpace]
      have hread : readInt (w ++ (shapeText (.node x kids) last ++ rest)) =
          ⟨true, some x, ' ' :: (shapeTexts kids false ++ rest)⟩ := by
        rw [← readInt_toDigits hw' hmax (c := ' ') (by decide)]
        simp [shapeText]
      have hdigits : 0 < (Nat.toDigits 10 x).length :=
        List.length_pos_iff.mpr Nat.toDigits_ne_nil
      obtain ⟨ks, hks, hshape⟩ := deserializeChilds_eq (deserialize dom fuel) kids
        ((List.range (dom.nValues x)).map fun i =>
          NodeData.child { nd with splitvar := (x : ℤ) } i ⟨nd.configs.hit, nd.configs.miss⟩)
        (by rw [List.length_map, List.length_range, hlen])
        (fun k hk nd' hmem w' hw' last' rest' => by
          obtain ⟨i, -, rfl⟩ := List.mem_map.mp hmem
          have := shapeText_length_le hk false last'
          simp only [shapeText, List.length_append, List.length_cons] at hfuel
          exact ih k hk (by omega) hw' (child_isLeaf hnd) rest')
        (w := [' ']) (by simp [AllSpace, isSpace]) false rest
        (by rintro rfl; rw [List.length_nil] at hlen; omega)
      refine ⟨.mk { nd with splitvar := (x : ℤ) } ks, ?_, fun d => ?_⟩
      · rw [deserialize, hread]
        have hcheck : (0 : ℤ) ≤ x ∧ (x : ℤ) < dom.nVars := by omega
        rw [List.singleton_append] at hks
        simp only [Option.getD_some, if_true, check_pos hcheck, ok_bind, Int.toNat_natCast, hks]
      · have hnode : (mk { nd with splitvar := (x : ℤ) } ks).shape d =
            .node x (ks.map (shape d)) := shape_node hnd rfl
        rwa [hshape] at hnode

/-! ## What the reader accepts -/

/-- The loop over the children, for a reader that consumes something and returns
well-formed nodes. -/
theorem deserializeChilds_meets {read : NodeData → List Char → Except Abort (CNode × List Char)}
    {lim : ℕ} (nds : List NodeData) (s : List Char) (hs : s.length < lim)
    (hread : ∀ nd ∈ nds, ∀ s, s.length < lim → Meets (read nd s)
      (fun r => r.1.Wf dom depth ∧ r.2.length < s.length) (· ≠ .outOfFuel)) :
    Meets (deserializeChilds read nds s)
      (fun r => r.1.length = nds.length ∧ (∀ k ∈ r.1, k.Wf dom depth) ∧ r.2.length ≤ s.length)
      (· ≠ .outOfFuel) := by
  induction nds generalizing s with
  | nil => exact ⟨rfl, fun k hk => absurd hk List.not_mem_nil, Nat.le_refl _⟩
  | cons nd nds ih =>
      rw [deserializeChilds]
      refine meets_bind (hread nd (List.mem_cons_self ..) s hs) ?_
      rintro ⟨k, s₁⟩ ⟨hk, hlen₁⟩
      refine meets_bind (ih s₁ (Nat.lt_trans hlen₁ hs)
        fun nd' hmem => hread nd' (List.mem_cons_of_mem _ hmem)) ?_
      rintro ⟨ks, s₂⟩ ⟨hlen, hks, hlen₂⟩
      refine ⟨by simpa using hlen, fun k' hk' => ?_, by dsimp only at *; omega⟩
      rcases List.mem_cons.mp hk' with rfl | hmem
      · exact hk
      · exact hks k' hmem

/-- **`deserialize` ends on every input**: with more fuel than characters it
never runs out of fuel, and what it returns is well formed. -/
theorem deserialize_meets (fuel : ℕ) {nd : NodeData} {s : List Char} (hs : s.length < fuel)
    (hnd : nd.isLeaf = false) :
    Meets (deserialize dom fuel nd s)
      (fun r => r.1.Wf dom nd.depth ∧ r.2.length < s.length) (· ≠ .outOfFuel) := by
  induction fuel generalizing nd s with
  | zero => exact absurd hs (Nat.not_lt_zero _)
  | succ fuel ih =>
      have hrest := readInt_rest_length s
      rw [deserialize]
      cases hok : (readInt s).ok with
      | true =>
          simp only [if_true]
          refine meets_check_bind (fun hrange => ?_) fun _ => by simp
          obtain ⟨var, hvar⟩ : ∃ var : ℕ, (readInt s).value.getD nd.splitvar = var :=
            ⟨_, (Int.toNat_of_nonneg hrange.1).symm⟩
          simp only [hvar, Int.toNat_natCast] at hrange ⊢
          have hlt := hrest.2 hok
          refine meets_bind (deserializeChilds_meets _ _
            (show (readInt s).rest.length < fuel by omega) fun nd' hmem s' hs' =>
              (?_ : Meets _ (fun r : CNode × List Char => r.1.Wf dom (nd.depth + 1) ∧ _) _)) ?_
          · obtain ⟨i, -, rfl⟩ := List.mem_map.mp hmem
            exact ih hs' (child_isLeaf hnd)
          · rintro ⟨ks, s'⟩ ⟨hlen, hks, hlen'⟩
            refine ⟨.node hnd rfl rfl (by omega) ?_ hks, ?_⟩
            · simpa using hlen
            · dsimp only at *
              omega
      | false =>
          simp only [Bool.false_eq_true, if_false]
          have hskip := skipWs_length_le (readInt s).rest
          cases hws : skipWs (readInt s).rest with
          | nil => simp
          | cons c s' =>
              refine meets_check_bind (fun hc => ?_) fun _ => by simp
              refine ⟨.leaf ?_ rfl, ?_⟩
              · rcases hc with rfl | rfl <;> rfl
              · rw [hws, List.length_cons] at hskip
                dsimp only
                omega

/-! ## Nodes of the same shape -/

/-- Two well-formed nodes of the same shape, side by side. -/
inductive Alike (dom : Domain) (d d' : Bool) : ℕ → CNode → CNode → Prop
  | leaf {depth : ℕ} {nd nd' : NodeData} (isLeaf : nd.isLeaf = true) (isLeaf' : nd'.isLeaf = true)
      (value : nd.leafValue d = nd'.leafValue d') : Alike dom d d' depth (.mk nd []) (.mk nd' [])
  | node {depth : ℕ} {nd nd' : NodeData} {kids kids' : List CNode} (isLeaf : nd.isLeaf = false)
      (isLeaf' : nd'.isLeaf = false) (at_depth : nd.depth = nd'.depth)
      (splitvar : nd.splitvar = nd'.splitvar) (length : kids.length = kids'.length)
      (kid : ∀ (i : ℕ) (k k' : CNode), kids[i]? = some k → kids'[i]? = some k' →
        Alike dom d d' (depth + 1) k k') :
      Alike dom d d' depth (.mk nd kids) (.mk nd' kids')

theorem Wf.alike {d' : Bool} {t t' : CNode} (h : t.Wf dom depth) (h' : t'.Wf dom depth)
    (hshape : t.shape d = t'.shape d') : Alike dom d d' depth t t' := by
  induction h generalizing t' with
  | leaf hleaf _ =>
      cases h' with
      | leaf hleaf' _ =>
          rw [shape_leaf hleaf, shape_leaf hleaf'] at hshape
          exact .leaf hleaf hleaf' (DTree.leaf.inj hshape)
      | node hleaf' _ hvar' _ _ _ =>
          rw [shape_leaf hleaf, shape_node hleaf' hvar'] at hshape
          cases hshape
  | node hleaf hdepth hvar _ _ _ ih =>
      cases h' with
      | leaf hleaf' _ =>
          rw [shape_node hleaf hvar, shape_leaf hleaf'] at hshape
          cases hshape
      | node hleaf' hdepth' hvar' _ _ hkid' =>
          rw [shape_node hleaf hvar, shape_node hleaf' hvar'] at hshape
          obtain ⟨hvars, hkids⟩ := DTree.node.inj hshape
          refine .node hleaf hleaf' (hdepth.trans hdepth'.symm) ?_ ?_ fun i k k' hk hk' => ?_
          · rw [hvar, hvar', hvars]
          · simpa using congrArg List.length hkids
          · refine ih k (List.mem_of_getElem? hk) (hkid' k' (List.mem_of_getElem? hk')) ?_
            have hget := congrArg (fun l => l[i]?) hkids
            simpa [hk, hk'] using hget

section Congr

variable {d' : Bool} {t t' : CNode}

theorem interpreterChilds_congr {kids kids' : List CNode} (hlen : kids.length = kids'.length)
    (hkids : ∀ (i : ℕ) (k k' : CNode), kids[i]? = some k → kids'[i]? = some k' → ∀ dat,
      k.buildInterpreter dom d dat = k'.buildInterpreter dom d' dat) (beg i : ℕ) (dat : List ℤ) :
    interpreterChilds dom d beg i kids dat = interpreterChilds dom d' beg i kids' dat := by
  induction kids generalizing kids' i dat with
  | nil =>
      obtain rfl : kids' = [] := List.length_eq_zero_iff.mp hlen.symm
      rw [interpreterChilds, interpreterChilds]
  | cons k ks ih =>
      cases kids' with
      | nil => simp at hlen
      | cons k' ks' =>
          have hk := hkids 0 k k' rfl rfl
          have hks := fun i dat => ih (by simpa using hlen)
            (fun j => by simpa using hkids (j + 1)) i dat
          cases ks with
          | nil =>
              obtain rfl : ks' = [] := by simpa using hlen.symm
              rw [interpreterChilds, interpreterChilds, hk]
          | cons k₂ ks =>
              cases ks' with
              | nil => simp at hlen
              | cons k₂' ks' => simp only [interpreterChilds, hk, hks]

/-- The flat code depends on the shape only. -/
theorem Alike.buildInterpreter_eq (h : Alike dom d d' depth t t') (dat : List ℤ) :
    t.buildInterpreter dom d dat = t'.buildInterpreter dom d' dat := by
  induction h generalizing dat with
  | leaf hleaf hleaf' hvalue => simp [buildInterpreter, hleaf, hleaf', hvalue]
  | node hleaf hleaf' _ hvar hlen _ ih =>
      simp only [buildInterpreter, hleaf, hleaf', Bool.false_eq_true, if_false, hvar, hlen,
        fun beg i dat => interpreterChilds_congr hlen ih beg i dat]

theorem mixedChilds_congr {kids kids' : List CNode} (hlen : kids.length = kids'.length)
    (hkids : ∀ (i : ℕ) (k k' : CNode), kids[i]? = some k → kids'[i]? = some k' →
      Alike dom d d' depth k k' ∧ k.buildZexprMixed dom d = k'.buildZexprMixed dom d')
    (x val : ℕ) (res : Option ZExpr) :
    mixedChilds dom d x kids val res = mixedChilds dom d' x kids' val res := by
  induction kids generalizing kids' val res with
  | nil =>
      obtain rfl : kids' = [] := List.length_eq_zero_iff.mp hlen.symm
      rw [mixedChilds, mixedChilds]
  | cons k ks ih =>
      cases kids' with
      | nil => simp at hlen
      | cons k' ks' =>
          obtain ⟨halike, hmixed⟩ := hkids 0 k k' rfl rfl
          have hks := fun val res => ih (by simpa using hlen)
            (fun j => by simpa using hkids (j + 1)) val res
          cases halike with
          | leaf hleaf hleaf' hvalue =>
              simp only [mixedChilds, hleaf, hleaf', if_true, hvalue, hks]
          | node hleaf hleaf' _ _ _ _ =>
              simp only [mixedChilds, hleaf, hleaf', Bool.false_eq_true, if_false, hmixed, hks]

/-- The FreeMix formula depends on the shape only. -/
theorem Alike.buildZexprMixed_eq (h : Alike dom d d' depth t t') :
    t.buildZexprMixed dom d = t'.buildZexprMixed dom d' := by
  induction h with
  | leaf hleaf hleaf' hvalue => simp only [buildZexprMixed, hleaf, hleaf', if_true, hvalue]
  | node hleaf hleaf' _ hvar hlen hkid ih =>
      simp only [buildZexprMixed, hleaf, hleaf', Bool.false_eq_true, if_false, hvar, hlen,
        fun x val res => mixedChilds_congr hlen
          (fun i k k' hk hk' => ⟨hkid i k k' hk hk', ih i k k' hk hk'⟩) x val res]

theorem disjConjChilds_congr {nd nd' : NodeData} (hdepth : nd.depth = nd'.depth)
    (hvar : nd.splitvar = nd'.splitvar) {kids kids' : List CNode}
    (hlen : kids.length = kids'.length)
    (hkids : ∀ (i : ℕ) (k k' : CNode), kids[i]? = some k → kids'[i]? = some k' → ∀ cur,
      k.buildZexprDisjConj d cur = k'.buildZexprDisjConj d' cur) (val : ℕ) (cur : ZExpr) :
    disjConjChilds d nd kids val cur = disjConjChilds d' nd' kids' val cur := by
  induction kids generalizing kids' val with
  | nil =>
      obtain rfl : kids' = [] := List.length_eq_zero_iff.mp hlen.symm
      rw [disjConjChilds, disjConjChilds]
  | cons k ks ih =>
      cases kids' with
      | nil => simp at hlen
      | cons k' ks' =>
          have hks := ih (by simpa using hlen)
            (fun j => by simpa using hkids (j + 1)) (val + 1)
          simp only [disjConjChilds, hkids 0 k k' rfl rfl, hks, hdepth, hvar]

/-- The DisjOfConj formula depends on the shape only. -/
theorem Alike.buildZexprDisjConj_eq (h : Alike dom d d' depth t t') (cur : ZExpr) :
    t.buildZexprDisjConj d cur = t'.buildZexprDisjConj d' cur := by
  induction h generalizing cur with
  | leaf hleaf hleaf' hvalue =>
      simp [buildZexprDisjConj, hleaf, hleaf', hvalue, disjConjChilds]
  | node hleaf hleaf' hdepth hvar hlen _ ih =>
      simp only [buildZexprDisjConj, hleaf, hleaf', Bool.false_and,
        disjConjChilds_congr hdepth hvar hlen ih 0 cur]

end Congr

end CNode

/-! ## Trees -/

/-- The trees of the program: those that `build_tree` has grown from complete
configurations, and those that have been read from a text. -/
inductive CTree.Made (dom : Domain) : CTree → Prop
  | built {select : Selector} {tree tree' : CTree} (fresh : tree.interpreter = [])
      (complete : ∀ s, ∀ c ∈ tree.configs.get s, c.Complete dom)
      (run : tree.buildTree dom select = .ok tree') : Made dom tree'
  | read {s rest : List Char} {tree' : CTree}
      (run : CTree.deserialize dom {} s = .ok (tree', rest)) : Made dom tree'

theorem CTree.deserialize_meets (dom : Domain) (s : List Char) :
    Meets (CTree.deserialize dom {} s)
      (fun r => (∃ root, r.1.root = some root ∧ root.Wf dom 0) ∧ r.1.interpreter = [] ∧
        r.2.length < s.length) (· ≠ .outOfFuel) := by
  rw [CTree.deserialize]
  refine meets_check_bind (fun _ => ?_) fun h => absurd rfl h
  refine meets_bind (CNode.deserialize_meets (s.length + 1) (Nat.lt_succ_self _) rfl) ?_
  rintro ⟨root, rest⟩ ⟨hwf, hlen⟩
  exact ⟨⟨root, rfl, hwf⟩, rfl, hlen⟩

/-- A tree of the program has a well-formed root and no code yet. -/
theorem CTree.Made.wf {dom : Domain} {tree : CTree} (h : tree.Made dom) :
    ∃ root, tree.root = some root ∧ root.Wf dom 0 ∧ tree.interpreter = [] := by
  cases h with
  | built hfresh hc hrun =>
      obtain ⟨⟨root, hfits⟩, -, hcode⟩ := (buildTree_meets _ hc).of_eq_ok hrun
      exact ⟨root, hfits.root_eq, hfits.wf, hcode.trans hfresh⟩
  | read hrun =>
      obtain ⟨⟨root, hroot, hwf⟩, hcode, -⟩ := (CTree.deserialize_meets dom _).of_eq_ok hrun
      exact ⟨root, hroot, hwf, hcode⟩

/-- Two trees that **decide alike**: they have the same shape, with the same split
variables and leaf labels, and therefore the same walk, code and formulas. -/
structure CTree.SameAs (dom : Domain) (tree tree' : CTree) : Prop where
  shape : ∃ root root', tree.root = some root ∧ tree'.root = some root' ∧
    root.shape tree.defaultHit = root'.shape tree'.defaultHit
  testConfig : ∀ c : Config, c.Complete dom → ∃ b n n',
    tree.testConfig c = .ok (b, n) ∧ tree'.testConfig c = .ok (b, n')
  interpret : ∀ c : Config,
    (do let t ← tree.buildInterpreter dom; t.interpret dom c) =
      (do let t ← tree'.buildInterpreter dom; t.interpret dom c)
  buildZexpr : ∀ strat, tree.buildZexpr dom strat = tree'.buildZexpr dom strat

/-- Trees without code whose roots are well formed and have the same shape decide
alike. -/
theorem CTree.SameAs.of_shape {dom : Domain} {tree tree' : CTree} {root root' : CNode}
    (hroot : tree.root = some root) (hroot' : tree'.root = some root')
    (hwf : root.Wf dom 0) (hwf' : root'.Wf dom 0)
    (hcode : tree.interpreter = []) (hcode' : tree'.interpreter = [])
    (hshape : root.shape tree.defaultHit = root'.shape tree'.defaultHit) :
    tree.SameAs dom tree' := by
  have halike := hwf.alike hwf' hshape
  refine ⟨⟨root, root', hroot, hroot', hshape⟩, fun c hc => ?_, fun c => ?_, fun strat => ?_⟩
  · obtain ⟨b, n, htest, heval⟩ := hwf.testConfig hc tree.defaultHit
    obtain ⟨b', n', htest', heval'⟩ := hwf'.testConfig hc tree'.defaultHit
    rw [hshape, heval', Option.some.injEq] at heval
    subst heval
    refine ⟨b', n, n', ?_, ?_⟩
    · rw [CTree.testConfig, rootNode, hroot, ok_bind, htest]
    · rw [CTree.testConfig, rootNode, hroot', ok_bind, htest']
  · simp only [buildInterpreter, hcode, hcode', hroot, hroot', ne_eq, not_true_eq_false, if_false,
      halike.buildInterpreter_eq]
    cases root'.buildInterpreter dom tree'.defaultHit [] <;> rfl
  · cases strat with
    | freeMix =>
        simp only [CTree.buildZexpr, rootNode, hroot, hroot', ok_bind, halike.buildZexprMixed_eq]
    | disjOfConj =>
        simp only [CTree.buildZexpr, rootNode, hroot, hroot', ok_bind,
          halike.buildZexprDisjConj_eq]

/-- A tree of any shape that fits the options is read from the text of the shape. -/
theorem CTree.deserialize_shaped {dom : Domain} {sh : DTree ℕ Bool} (h : sh.Shaped dom.nValues) :
    ∃ tree root, CTree.deserialize dom {} (shapeText sh false) = .ok (tree, []) ∧
      tree.root = some root ∧ root.Wf dom 0 ∧ tree.interpreter = [] ∧ ∀ d, root.shape d = sh := by
  have hleaf : (NodeData.root dom ⟨⟨0, 1⟩, ⟨0, 1⟩⟩).isLeaf = false := rfl
  obtain ⟨root, hread, hshape⟩ := CNode.deserialize_shapeText h
    (Nat.lt_add_one (shapeText _ false).length) allSpace_nil hleaf []
  rw [List.nil_append, List.append_nil] at hread
  have hread' : CTree.deserialize dom {} (shapeText sh false) =
      .ok ({ configs := ⟨[{ values := [] }], []⟩, root := some root }, []) := by
    have hnone : ({} : CTree).root.isNone = true := rfl
    rw [CTree.deserialize, check_pos hnone, ok_bind]
    simp only [hread, ok_bind]
  obtain ⟨⟨root₂, hroot₂, hwf₂⟩, -, -⟩ := (CTree.deserialize_meets dom _).of_eq_ok hread'
  obtain rfl : root = root₂ := Option.some.inj hroot₂
  exact ⟨_, root, hread', rfl, hwf₂, rfl, hshape⟩

/-- A tree with a well-formed root is printed as the text of its shape, and a tree of the
same shape is read from it. -/
theorem CTree.deserialize_of_wf {dom : Domain} {tree : CTree} {root : CNode}
    (hroot : tree.root = some root) (hwf : root.Wf dom 0) :
    ∃ tree' root', tree.serialize = .ok (shapeText (root.shape tree.defaultHit) false) ∧
      CTree.deserialize dom {} (shapeText (root.shape tree.defaultHit) false) = .ok (tree', []) ∧
      tree'.root = some root' ∧ root'.Wf dom 0 ∧ tree'.interpreter = [] ∧
      root.shape tree.defaultHit = root'.shape tree'.defaultHit := by
  have htext := hwf.serialize_eq (d := tree.defaultHit) [] false
  rw [List.nil_append] at htext
  obtain ⟨tree', root', hread, hroot', hwf', hcode, hshape⟩ :=
    CTree.deserialize_shaped (hwf.shaped (NodeData.leafValue tree.defaultHit))
  refine ⟨tree', root', ?_, hread, hroot', hwf', hcode, (hshape _).symm⟩
  rw [CTree.serialize, rootNode, hroot, ok_bind, htext]

/-- **Round trip.**  The text of a tree, grown or read, is read back to its end
and gives a tree that decides alike; and reading ends on every text. -/
theorem CTree.deserialize_serialize (dom : Domain) :
    (∀ tree : CTree, tree.Made dom → ∃ s tree', tree.serialize = .ok s ∧
      CTree.deserialize dom {} s = .ok (tree', []) ∧ tree.SameAs dom tree') ∧
    ∀ s, CTree.deserialize dom {} s ≠ .error .outOfFuel := by
  refine ⟨fun tree hmade => ?_, fun s hs => ?_⟩
  · obtain ⟨root, hroot, hwf, hcode⟩ := hmade.wf
    obtain ⟨tree', root', htext, hread, hroot', hwf', hcode', hshape⟩ :=
      CTree.deserialize_of_wf hroot hwf
    exact ⟨_, tree', htext, hread, .of_shape hroot hroot' hwf hwf' hcode hcode' hshape⟩
  · exact (CTree.deserialize_meets dom s).of_eq_error hs rfl

/-- A tree that has been grown for a location covered by one of three configurations. -/
theorem CTree.deserialize_serialize_grown :
    let dom := Domain.switches 2 (by decide)
    let tree : CTree := { configs := ⟨[{ values := [0, 0] }, { values := [1, 0] }], [{ values := [1, 1] }]⟩ }
    ∃ tree' s tree'', tree.buildTree dom .firstUntested = .ok tree' ∧ tree'.serialize = .ok s ∧
      CTree.deserialize dom {} s = .ok (tree'', []) ∧ tree'.SameAs dom tree'' := by
  intro dom tree
  have hcomplete : ∀ s, ∀ c ∈ tree.configs.get s, c.Complete dom := by decide
  obtain ⟨tree', hrun⟩ : ∃ tree', tree.buildTree dom .firstUntested = .ok tree' := ⟨_, rfl⟩
  obtain ⟨s, tree'', hs, hread, hsame⟩ :=
    (deserialize_serialize dom).1 tree' (.built rfl hcomplete hrun)
  exact ⟨tree', s, tree'', hrun, hs, hread, hsame⟩

end GenTree
