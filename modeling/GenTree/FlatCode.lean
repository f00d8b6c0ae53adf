import GenTree.RoundTrip

/-!
# The flat code of a tree

`build_interpreter` compiles a tree into one vector of integers.  A leaf is a
negative marker.  An inner node with `n` children occupies `n` cells, its
variable and the addresses of the children `1, …, n - 1`; the code of child `0`
follows directly, so the interpreter adds `n` for the value `0` and looks the
address up for every other value.  The addresses are patched in while the
children are appended to the same vector.

`CodeAt` is the static reading of that layout: the code of a node occupies an
interval of the vector, and every jump goes to the interval of a child, further
on.  The compiler establishes it (`Wf.buildInterpreter`), code that is appended
or patched elsewhere does not destroy it (`CodeAt.congr`), and the interpreter
follows it (`CodeAt.interpretLoop_eq`).
-/

namespace GenTree

open Outcome

namespace CNode

/-! ## The layout -/

/-- The code of the node `t` occupies the interval from `pos` to `stop` of
`code`. -/
inductive CodeAt (d : Bool) (code : List ℤ) : ℕ → ℕ → CNode → Prop
  | leaf {pos stop : ℕ} {nd : NodeData} {kids : List CNode} (isLeaf : nd.isLeaf = true)
      (lt : pos < stop)
      (instr : code[pos]? = some (if nd.leafValue d then kInterpretHit else kInterpretMiss)) :
      CodeAt d code pos stop (.mk nd kids)
  | node {pos stop : ℕ} {nd : NodeData} {kids : List CNode} {var : ℕ} (isLeaf : nd.isLeaf = false)
      (splitvar : nd.splitvar = var) (room : pos + kids.length ≤ stop) (kids_ne : kids ≠ [])
      (instr : code[pos]? = some (var : ℤ)) (addr fin : ℕ → ℕ)
      (first : addr 0 = pos + kids.length)
      (jump : ∀ i, 0 < i → i < kids.length → code[pos + i]? = some (addr i : ℤ))
      (inside : ∀ i < kids.length, pos < addr i ∧ fin i ≤ stop)
      (kid : ∀ (i : ℕ) (k : CNode), kids[i]? = some k → CodeAt d code (addr i) (fin i) k) :
      CodeAt d code pos stop (.mk nd kids)

section Layout

variable {dom : Domain} {d : Bool} {code code' : List ℤ} {pos stop depth : ℕ} {t : CNode}

/-- Only the cells of the interval matter. -/
theorem CodeAt.congr (h : CodeAt d code pos stop t)
    (hcells : ∀ p, pos ≤ p → p < stop → code'[p]? = code[p]?) : CodeAt d code' pos stop t := by
  induction h with
  | leaf hleaf hlt hinstr => exact .leaf hleaf hlt (by rw [hcells _ (Nat.le_refl _) hlt, hinstr])
  | node hleaf hvar hroom hne hinstr addr fin hfirst hjump hinside _ ih =>
      have hpos := List.length_pos_iff.mpr hne
      refine .node hleaf hvar hroom hne ?_ addr fin hfirst (fun i hi hlt => ?_) hinside
        fun i k hk => ?_
      · rw [hcells _ (Nat.le_refl _) (by omega), hinstr]
      · rw [hcells _ (by omega) (by omega), hjump i hi hlt]
      · have hin := hinside i (List.getElem?_eq_some_iff.mp hk).1
        exact ih i k hk fun p hlo hhi => hcells p (by omega) (by omega)

/-! ## The compiler -/

theorem vecResize_of_le {l : List ℤ} {n : ℕ} (h : l.length ≤ n) :
    vecResize l n = l ++ List.replicate (n - l.length) 0 := by
  rw [vecResize, List.take_of_length_le h]

/-- The code of `t` has been appended to `dat`. -/
structure Emitted (d : Bool) (t : CNode) (dat dat' : List ℤ) : Prop where
  length : dat.length < dat'.length
  keep : ∀ p < dat.length, dat'[p]? = dat[p]?
  code : CodeAt d dat' dat.length dat'.length t

/-- The code of the children from child `i` on has been appended to `dat`, with
their addresses patched into the table at `beg`. -/
structure EmittedKids (d : Bool) (beg i : ℕ) (kids : List CNode) (dat dat' : List ℤ)
    (addr fin : ℕ → ℕ) : Prop where
  length : dat.length < dat'.length
  keep : ∀ p < dat.length, p < beg + i ∨ beg + i + kids.length ≤ p + 1 → dat'[p]? = dat[p]?
  first : addr i = dat.length
  jump : ∀ j, 0 < j → j < kids.length → dat'[beg + (i + j) - 1]? = some (addr (i + j) : ℤ)
  inside : ∀ j < kids.length, dat.length ≤ addr (i + j) ∧ fin (i + j) ≤ dat'.length
  kid : ∀ (j : ℕ) (k : CNode), kids[j]? = some k →
    CodeAt d dat' (addr (i + j)) (fin (i + j)) k

/-- **The loop over the children.**  Each child is appended, and the address of
the next one is written into a cell in front of all of them. -/
theorem interpreterChilds_spec {beg : ℕ} {k : CNode} {ks : List CNode}
    (hkids : ∀ k' ∈ k :: ks, ∀ dat, ∃ dat', k'.buildInterpreter dom d dat = .ok dat' ∧
      Emitted d k' dat dat') (i : ℕ) {dat : List ℤ} (hroom : beg + i + ks.length ≤ dat.length) :
    ∃ dat' addr fin, interpreterChilds dom d beg i (k :: ks) dat = .ok dat' ∧
      EmittedKids d beg i (k :: ks) dat dat' addr fin := by
  induction ks generalizing k i dat with
  | nil =>
      obtain ⟨dat', hrun, hem⟩ := hkids k (List.mem_cons_self ..) dat
      refine ⟨dat', fun _ => dat.length, fun _ => dat'.length, by rw [interpreterChilds, hrun],
        hem.length, fun p hp _ => hem.keep p hp, rfl, ?_,
        fun _ _ => ⟨Nat.le_refl _, Nat.le_refl _⟩, ?_⟩
      · intro j hj hlt
        simp only [List.length_singleton] at hlt
        omega
      · intro j k' hk'
        obtain ⟨rfl, rfl⟩ : j = 0 ∧ k = k' := by
          cases j with
          | zero => exact ⟨rfl, by simpa using hk'⟩
          | succ j => simp at hk'
        exact hem.code
  | cons k₂ ks ih =>
      obtain ⟨dat₁, hrun₁, hem₁⟩ := hkids k (List.mem_cons_self ..) dat
      have hlen₁ := hem₁.length
      simp only [List.length_cons] at hroom
      obtain ⟨dat₂, addr, fin, hrun₂, hem₂⟩ := ih
        (fun k' hk' => hkids k' (List.mem_cons_of_mem _ hk')) (i + 1)
        (show beg + (i + 1) + ks.length ≤ (dat₁.set (beg + i) (dat₁.length : ℤ)).length by
          rw [List.length_set]; omega)
      have hlen₂ := hem₂.length
      rw [List.length_set] at hlen₂
      -- the patched cell is in front of everything that follows
      have hpatch : dat₂[beg + i]? = some (dat₁.length : ℤ) := by
        rw [hem₂.keep _ (by rw [List.length_set]; omega) (by omega), List.getElem?_set_self]
        omega
      have hkeep : ∀ p < dat₁.length, p < beg + i ∨ beg + i + (ks.length + 2) ≤ p + 1 →
          dat₂[p]? = dat₁[p]? := by
        intro p hp hout
        rw [hem₂.keep p (by rw [List.length_set]; exact hp)
          (by simp only [List.length_cons]; omega), List.getElem?_set_ne (by omega)]
      have hfirst := hem₂.first
      rw [List.length_set] at hfirst
      refine ⟨dat₂, fun j => if j = i then dat.length else addr j,
        fun j => if j = i then dat₁.length else fin j, ?_, by omega, ?_, ?_, ?_, ?_, ?_⟩
      · rw [interpreterChilds, hrun₁, ok_bind, hrun₂]
      · intro p hp hout
        simp only [List.length_cons] at hout
        rw [hkeep p (by omega) (by omega), hem₁.keep p hp]
      · exact if_pos rfl
      · intro j hj hlt
        simp only [List.length_cons] at hlt
        rw [if_neg (by omega)]
        rcases Nat.lt_or_ge 1 j with hj1 | hj1
        · have hjump := hem₂.jump (j - 1) (by omega) (by simp only [List.length_cons]; omega)
          rwa [show i + 1 + (j - 1) = i + j by omega] at hjump
        · obtain rfl : j = 1 := by omega
          rw [show beg + (i + 1) - 1 = beg + i by omega, hpatch, hfirst]
      · intro j hj
        cases j with
        | zero =>
            rw [if_pos (Nat.add_zero i), if_pos (Nat.add_zero i)]
            omega
        | succ j =>
            have hin := hem₂.inside j (by simpa using hj)
            rw [List.length_set] at hin
            rw [if_neg (by omega), if_neg (by omega), show i + (j + 1) = i + 1 + j by omega]
            omega
      · intro j k' hk'
        cases j with
        | zero =>
            obtain rfl : k = k' := by simpa using hk'
            rw [if_pos (Nat.add_zero i), if_pos (Nat.add_zero i)]
            exact hem₁.code.congr fun p hlo hhi => hkeep p hhi (by omega)
        | succ j =>
            rw [if_neg (by omega), if_neg (by omega), show i + (j + 1) = i + 1 + j by omega]
            exact hem₂.kid j k' (by simpa using hk')

/-- **The compiler** appends the code of a well-formed node, and its `CHECK` does
not fire. -/
theorem Wf.buildInterpreter (h : t.Wf dom depth) (dat : List ℤ) :
    ∃ dat', t.buildInterpreter dom d dat = .ok dat' ∧ Emitted d t dat dat' := by
  induction h generalizing dat with
  | @leaf depth nd hleaf _ =>
      refine ⟨_, by rw [CNode.buildInterpreter, if_pos hleaf], by simp, fun p hp => ?_, ?_⟩
      · exact List.getElem?_append_left hp
      · exact .leaf hleaf (by simp) (by simp)
  | @node depth nd kids var hleaf _ hvar hlt hlen _ ih =>
      have hpos : 0 < kids.length := by
        rw [hlen]
        exact dom.nValues_pos hlt
      cases kids with
      | nil => simp at hpos
      | cons k ks =>
          have hresize : vecResize (dat ++ [(var : ℤ)])
              ((dat ++ [(var : ℤ)]).length + (k :: ks).length - 1) =
                dat ++ [(var : ℤ)] ++ List.replicate ks.length 0 := by
            rw [vecResize_of_le (by simp)]
            simp
          have hlen₁ : (dat ++ [(var : ℤ)] ++ List.replicate ks.length 0).length =
              dat.length + (k :: ks).length := by
            simp
          obtain ⟨dat', addr, fin, hrun, hem⟩ := interpreterChilds_spec ih 0
            (show dat.length + 1 + 0 + ks.length ≤
                (dat ++ [(var : ℤ)] ++ List.replicate ks.length 0).length by
              rw [hlen₁, List.length_cons]; omega)
          have hlen' := hem.length
          have hfirst := hem.first
          rw [hlen₁] at hlen' hfirst
          refine ⟨dat', ?_, by omega, fun p hp => ?_, ?_⟩
          · rw [CNode.buildInterpreter, if_neg (by simp [hleaf]), hvar, sizeT_natCast, ok_bind,
              check_pos hlen, ok_bind]
            simp only [hresize]
            simpa using hrun
          · rw [hem.keep p (by omega) (by omega), List.append_assoc, List.getElem?_append_left hp]
          · refine .node hleaf hvar (by omega) (by simp) ?_ addr fin hfirst (fun i hi hlt => ?_)
              (fun i hi => ?_) fun i k' hk' => ?_
            · rw [hem.keep _ (by omega) (by omega)]
              simp
            · have hjump := hem.jump i hi hlt
              rwa [Nat.zero_add, show dat.length + 1 + i - 1 = dat.length + i by omega] at hjump
            · have hin := hem.inside i hi
              rw [Nat.zero_add, hlen₁] at hin
              omega
            · have hcode := hem.kid i k' hk'
              rwa [Nat.zero_add] at hcode

/-! ## The interpreter -/

/-- **The interpreter follows the layout**: with more fuel than cells to the end
it returns the value of the tree. -/
theorem CodeAt.interpretLoop_eq (h : CodeAt d code pos stop t) (hwf : t.Wf dom depth)
    (hstop : stop ≤ code.length) {c : Config} (hc : c.Complete dom) {fuel : ℕ}
    (hfuel : code.length - pos ≤ fuel) :
    ∃ b, CTree.interpretLoop dom code c fuel pos = .ok b ∧ (t.shape d).eval c.val = some b := by
  induction h generalizing depth fuel with
  | @leaf pos stop nd kids hleaf hlt hinstr =>
      obtain ⟨fuel, rfl⟩ : ∃ n, fuel = n + 1 := ⟨fuel - 1, by omega⟩
      have hcheck : (0 : ℤ) ≤ pos ∧ (pos : ℤ) < code.length := by omega
      refine ⟨nd.leafValue d, ?_, by rw [shape_leaf hleaf, DTree.eval_leaf]⟩
      rw [CTree.interpretLoop, check_pos hcheck, ok_bind, Int.toNat_natCast,
        vecAt_of_getElem? hinstr, ok_bind]
      cases nd.leafValue d <;> rfl
  | @node pos stop nd kids var hleaf hvar hroom hne hinstr addr fin hfirst hjump hinside _ ih =>
      have hpos := List.length_pos_iff.mpr hne
      obtain ⟨fuel, rfl⟩ : ∃ n, fuel = n + 1 := ⟨fuel - 1, by omega⟩
      have hcheck : (0 : ℤ) ≤ pos ∧ (pos : ℤ) < code.length := by omega
      cases hwf with
      | leaf hleaf' _ => simp [hleaf] at hleaf'
      | @node _ _ _ var' _ _ hvar' hlt hlen hkid =>
          obtain rfl : var' = var := by omega
          have hval : c.val var' < kids.length := by rw [hlen]; exact hc.val_lt hlt
          have hget : kids[c.val var']? = some kids[c.val var'] := List.getElem?_eq_getElem hval
          have hin := hinside _ hval
          obtain ⟨b, hrun, heval⟩ := ih _ _ hget (hkid _ (List.getElem_mem hval)) (by omega)
            (show _ ≤ fuel by omega)
          have hhit : ¬ (var' : ℤ) = kInterpretHit := by simp only [kInterpretHit]; omega
          have hmiss : ¬ (var' : ℤ) = kInterpretMiss := by simp only [kInterpretMiss]; omega
          have hnode : ((mk nd kids).shape d).eval c.val = some b := by
            rw [shape_node hleaf hvar, DTree.eval_node, List.getElem?_map, hget]
            exact heval
          refine ⟨b, ?_, hnode⟩
          rw [CTree.interpretLoop, check_pos hcheck, ok_bind, Int.toNat_natCast,
            vecAt_of_getElem? hinstr, ok_bind, if_neg hhit, if_neg hmiss, sizeT_natCast, ok_bind,
            hc.get_eq_ok hlt, ok_bind]
          split
          · next hzero =>
              have hzero' : c.val var' = 0 := by omega
              rw [hzero', hfirst] at hrun
              rw [← hlen]
              exact_mod_cast hrun
          · next hnz =>
              have hcell := hjump (c.val var') (by omega) hval
              rw [show (pos : ℤ) + (c.val var' : ℤ) = ((pos + c.val var' : ℕ) : ℤ) by omega,
                sizeT_natCast, ok_bind, vecAt_of_getElem? hcell, ok_bind, hrun]

end Layout

end CNode

/-! ## Trees -/

/-- A walk of a tree of the program is repeated by its code. -/
theorem CTree.Made.compiled {dom : Domain} {tree : CTree} (h : tree.Made dom) :
    ∃ tree', tree.buildInterpreter dom = .ok tree' ∧
      ∀ (c : Config) (b : Bool) (n : ℕ), c.Complete dom → tree.testConfig c = .ok (b, n) →
        tree'.interpret dom c = .ok b := by
  obtain ⟨root, hroot, hwf, hcode⟩ := h.wf
  obtain ⟨code, hbuild, hem⟩ := hwf.buildInterpreter (d := tree.defaultHit) []
  refine ⟨{ tree with interpreter := code }, ?_, fun c b n hc htest => ?_⟩
  · rw [buildInterpreter, if_neg (by simp [hcode]), hroot]
    dsimp only
    rw [hbuild, ok_bind]
  · obtain ⟨b', n', htest', heval⟩ := hwf.testConfig hc tree.defaultHit
    obtain ⟨b'', hrun, heval'⟩ := hem.code.interpretLoop_eq hwf (Nat.le_refl _) hc (Nat.sub_le _ _)
    rw [CTree.testConfig, rootNode, hroot, ok_bind, htest', Except.ok.injEq, Prod.mk.injEq] at htest
    rw [heval, Option.some.injEq] at heval'
    rw [← htest.1, heval']
    exact hrun

/-- **The compiled tree is the tree walk.**  For every tree of the program the
code is built, and on every complete configuration running it ends inside the
code with the truth value `test_config` returns. -/
theorem CTree.interpret_eq_testConfig {dom : Domain} {tree : CTree} (h : tree.Made dom) :
    ∃ tree', tree.buildInterpreter dom = .ok tree' ∧
      ∀ c : Config, c.Complete dom → ∃ b n, tree.testConfig c = .ok (b, n) ∧
        tree'.interpret dom c = .ok b := by
  obtain ⟨root, hroot, hwf, hcode⟩ := h.wf
  obtain ⟨code, hbuild, hem⟩ := hwf.buildInterpreter (d := tree.defaultHit) []
  refine ⟨{ tree with interpreter := code }, ?_, fun c hc => ?_⟩
  · simp only [buildInterpreter, hcode, ne_eq, not_true_eq_false, if_false, hroot, hbuild, ok_bind]
  · obtain ⟨b, n, htest, heval⟩ := hwf.testConfig hc tree.defaultHit
    obtain ⟨b', hrun, heval'⟩ := hem.code.interpretLoop_eq hwf (Nat.le_refl _) hc
      (Nat.sub_le _ _)
    rw [heval, Option.some.injEq] at heval'
    subst heval'
    refine ⟨b, n, ?_, hrun⟩
    rw [CTree.testConfig, rootNode, hroot, ok_bind, htest]

/-- A test of one switch, read from its text. -/
theorem CTree.interpret_eq_testConfig_read :
    let dom := Domain.switches 1 (by decide)
    ∃ tree rest, CTree.deserialize dom {} ['0', ' ', 'M', 'H'] = .ok (tree, rest) ∧
      ∃ tree', tree.buildInterpreter dom = .ok tree' ∧
        ∀ c : Config, c.Complete dom → ∃ b n, tree.testConfig c = .ok (b, n) ∧
          tree'.interpret dom c = .ok b :=
  ⟨_, _, rfl, interpret_eq_testConfig (.read (s := ['0', ' ', 'M', 'H']) rfl)⟩

/-- A walk that reads a negative value at its first node dies. -/
theorem CNode.CodeAt.interpretLoop_negative {dom : Domain} {d : Bool} {code : List ℤ} {stop : ℕ}
    {nd : NodeData} {kids : List CNode} (h : CodeAt d code 0 stop (.mk nd kids))
    (hleaf : nd.isLeaf = false) {var : ℕ} (hvar : nd.splitvar = var) {c : Config} {v : ℤ}
    (hget : c.get var = .ok v) (hneg : v < 0) (fuel : ℕ) :
    CTree.interpretLoop dom code c (fuel + 1) 0 = .error .outOfRange := by
  cases h with
  | leaf hleaf' _ _ => simp [hleaf] at hleaf'
  | @node _ _ _ _ var' _ hvar' _ _ hinstr _ _ _ _ _ _ =>
      obtain rfl : var' = var := by omega
      have hlen : 0 < code.length := (List.getElem?_eq_some_iff.mp hinstr).1
      have hcheck : (0 : ℤ) ≤ 0 ∧ (0 : ℤ) < code.length := by omega
      have hhit : ¬ (var' : ℤ) = kInterpretHit := by simp only [kInterpretHit]; omega
      have hmiss : ¬ (var' : ℤ) = kInterpretMiss := by simp only [kInterpretMiss]; omega
      rw [CTree.interpretLoop, check_pos hcheck, ok_bind, Int.toNat_zero,
        vecAt_of_getElem? hinstr, ok_bind, if_neg hhit, if_neg hmiss, sizeT_natCast, ok_bind, hget,
        ok_bind, if_neg (by omega), sizeT, if_neg (by omega)]
      rfl

end GenTree
