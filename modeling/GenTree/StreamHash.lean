import GenTree.CoverageStore
import GenTree.Library.KeyedRounds

/-!
# The streaming hash

`StreamHash` takes in a stream of numbers or of hashes.  Its state is two pairs of
64-bit words and a 32-bit counter.  Every pass mixes the counter into `KEY` and
the second word of `KEY` into `VAL`, and `digest` is `VAL`.

A pass is a permutation of the states (`pass_bijective`), so what has once told
two states apart is never lost.

* A number enters through the key.  `add` is a permutation for every number, and
  the digest after it tells the numbers apart.
* A hash enters through `VAL`.  The code mixes its first word in by `^` and its
  second word by `|`, and a bit that is set in `VAL.second` hides the same bit of
  the hash: two hashes are told apart exactly when they are told apart outside
  the bits that are set (`Tells`).
-/

namespace GenTree

open KeyedRounds Outcome

/-- `hash_t`. -/
abbrev HashT := BitVec 64 × BitVec 64

/-- `StreamHash`.  The defaults are those of the constructor without arguments. -/
@[ext] structure StreamHash where
  key : HashT := (0xdbafd606665ff759, 0x6d2636fbaebfa7ca)
  val : HashT := (0, 0)
  counter : BitVec 32 := 0x4483d451
  deriving DecidableEq

namespace StreamHash

/-! ## The operations -/

/-- `ROUNDS`. -/
def rounds : ℕ := 2

/-- `ROR`. -/
def ror (x : BitVec 64) (r : ℕ) : BitVec 64 := x >>> r ||| x <<< (64 - r)

/-- `ROL`. -/
def rol (x : BitVec 64) (r : ℕ) : BitVec 64 := x <<< r ||| x >>> (64 - r)

/-- `R`. -/
def R (p : HashT) (k : BitVec 64) : HashT :=
  let x := ror p.1 8
  let x := x + p.2
  let x := x ^^^ k
  let y := rol p.2 3
  let y := y ^^^ x
  (x, y)

/-- One pass of the loop of either `add`: `k` is the word that is made of the
counter and mixed into `KEY`. -/
def pass (k : BitVec 32 → BitVec 64) (s : StreamHash) : StreamHash :=
  let key := R s.key (k s.counter)
  { key, val := R s.val key.2, counter := s.counter + 1 }

/-- The word of `add(int)`: the counter above the 32 bits of the number. -/
def intWord (v counter : BitVec 32) : BitVec 64 :=
  counter.setWidth 64 <<< 32 ^^^ v.setWidth 64

/-- The word of `add(const hash_t &)`: the counter alone. -/
def counterWord (counter : BitVec 32) : BitVec 64 := counter.setWidth 64

/-- `add(int)`. -/
def add (s : StreamHash) (v : BitVec 32) : StreamHash := (pass (intWord v))^[rounds] s

/-- The first line of `add(const hash_t &)`. -/
def takeHash (s : StreamHash) (h : HashT) : StreamHash :=
  { s with val := (s.val.1 ^^^ h.1, s.val.2 ||| h.2) }

/-- `add(const hash_t &)`. -/
def addHash (s : StreamHash) (h : HashT) : StreamHash :=
  (pass counterWord)^[rounds] (s.takeHash h)

/-- `digest`. -/
def digest (s : StreamHash) : HashT := s.val

/-- `add(int)` for every number of a list. -/
def addAll (s : StreamHash) (l : List (BitVec 32)) : StreamHash := l.foldl add s

/-- `add(const hash_t &)` for every hash of a list. -/
def addHashes (s : StreamHash) (l : List HashT) : StreamHash := l.foldl addHash s

@[simp] theorem addAll_concat (s : StreamHash) (l : List (BitVec 32)) (v : BitVec 32) :
    s.addAll (l ++ [v]) = (s.addAll l).add v := by
  simp [addAll]

@[simp] theorem addHashes_concat (s : StreamHash) (l : List HashT) (h : HashT) :
    s.addHashes (l ++ [h]) = (s.addHashes l).addHash h := by
  simp [addHashes]

/-! ## A pass -/

theorem R_eq_round (p : HashT) (k : BitVec 64) : R p k = round 8 3 k p := rfl

theorem R_bijective (k : BitVec 64) : Function.Bijective fun p => R p k := by
  have hround : (fun p => R p k) = round 8 3 k := by
    funext p
    exact R_eq_round p k
  rw [hround]
  exact round_bijective (by decide) (by decide) k

theorem pass_injective (k : BitVec 32 → BitVec 64) : Function.Injective (pass k) := by
  intro s t h
  have hcounter : s.counter = t.counter := by
    have h1 : s.counter + 1 = t.counter + 1 := congrArg counter h
    exact (BitVec.add_left_inj 1).mp h1
  have hkey : R s.key (k s.counter) = R t.key (k t.counter) := congrArg key h
  have hval : R s.val (R s.key (k s.counter)).2 = R t.val (R t.key (k t.counter)).2 :=
    congrArg val h
  rw [← hkey] at hval
  rw [← hcounter] at hkey
  exact StreamHash.ext ((R_bijective _).1 hkey) ((R_bijective _).1 hval) hcounter

/-- **A pass is a permutation of the states**, whatever it mixes in. -/
theorem pass_bijective (k : BitVec 32 → BitVec 64) : Function.Bijective (pass k) := by
  refine ⟨pass_injective k, fun t => ?_⟩
  obtain ⟨key, hkey⟩ := (R_bijective (k (t.counter - 1))).2 t.key
  obtain ⟨val, hval⟩ := (R_bijective t.key.2).2 t.val
  refine ⟨{ key, val, counter := t.counter - 1 }, ?_⟩
  apply StreamHash.ext
  · exact hkey
  · show R val (R key (k (t.counter - 1))).2 = t.val
    rw [show R key (k (t.counter - 1)) = t.key from hkey]
    exact hval
  · exact BitVec.sub_add_cancel _ _

/-- Passes change `VAL` by a permutation that `KEY` and the counter fix. -/
theorem digest_pass_inj {k : BitVec 32 → BitVec 64} {s t : StreamHash} (hkey : s.key = t.key)
    (hcounter : s.counter = t.counter) :
    (pass k s).val = (pass k t).val ↔ s.val = t.val := by
  refine ⟨fun h => ?_, fun h => by rw [StreamHash.ext hkey h hcounter]⟩
  unfold pass at h
  simp only [← hkey, ← hcounter] at h
  exact (R_bijective _).1 h

/-! ## Numbers -/

theorem setWidth_inj {v w : BitVec 32} : v.setWidth 64 = w.setWidth 64 ↔ v = w := by
  refine ⟨fun h => ?_, fun h => by rw [h]⟩
  have hback := congrArg (BitVec.setWidth 32) h
  simpa using hback

theorem intWord_inj {v w counter : BitVec 32} : intWord v counter = intWord w counter ↔ v = w := by
  unfold intWord
  rw [BitVec.xor_right_inj, setWidth_inj]

theorem add_bijective (v : BitVec 32) : Function.Bijective fun s : StreamHash => s.add v :=
  (pass_bijective (intWord v)).iterate rounds

/-- **The digest tells the last number apart.**  The second word of `VAL` before
the second pass can be read off the digest; it shows `VAL` after the first pass,
which shows the second word of `KEY` there, which shows the number. -/
theorem digest_add_injective (s : StreamHash) :
    Function.Injective fun v => (s.add v).digest := by
  intro v w h
  have hval : R (pass (intWord v) s).val (pass (intWord v) (pass (intWord v) s)).key.2 =
      R (pass (intWord w) s).val (pass (intWord w) (pass (intWord w) s)).key.2 := h
  have hsnd : (pass (intWord v) s).val.2 = (pass (intWord w) s).val.2 :=
    snd_eq_of_round_eq (by decide) hval
  have hkey : (R s.key (intWord v s.counter)).2 = (R s.key (intWord w s.counter)).2 :=
    round_snd_inj.mp hsnd
  exact intWord_inj.mp (round_snd_inj.mp hkey)

theorem add_injective (s : StreamHash) : Function.Injective s.add :=
  fun _ _ h => digest_add_injective s (congrArg digest h)

/-! ## Hashes -/

/-- The digest after a hash shows what has become of `VAL` when it was taken in. -/
theorem digest_addHash_inj {s : StreamHash} {h h' : HashT} :
    (s.addHash h).digest = (s.addHash h').digest ↔ (s.takeHash h).val = (s.takeHash h').val := by
  show (pass counterWord (pass counterWord (s.takeHash h))).val =
    (pass counterWord (pass counterWord (s.takeHash h'))).val ↔ _
  exact (@digest_pass_inj counterWord (pass counterWord (s.takeHash h))
    (pass counterWord (s.takeHash h')) rfl rfl).trans (digest_pass_inj rfl rfl)

theorem addHash_inj {s : StreamHash} {h h' : HashT} :
    s.addHash h = s.addHash h' ↔ (s.takeHash h).val = (s.takeHash h').val := by
  refine ⟨fun heq => digest_addHash_inj.mp (congrArg digest heq), fun heq => ?_⟩
  have htake : s.takeHash h = s.takeHash h' := StreamHash.ext rfl heq rfl
  unfold addHash
  rw [htake]

/-- The hashes `h` and `h'` are **told apart** in the state `s`: in their first
words, or in a bit of their second words that `VAL.second` does not have set. -/
def Tells (s : StreamHash) (h h' : HashT) : Prop :=
  h.1 ≠ h'.1 ∨ ∃ i, s.val.2.getLsbD i = false ∧ h.2.getLsbD i ≠ h'.2.getLsbD i

theorem or_eq_or_iff {w : ℕ} {x y z : BitVec w} :
    x ||| y = x ||| z ↔ ∀ i, x.getLsbD i = false → y.getLsbD i = z.getLsbD i := by
  refine ⟨fun h i hx => ?_, fun h => BitVec.eq_of_getLsbD_eq fun i _ => ?_⟩
  · have hbit := congrArg (fun u => BitVec.getLsbD u i) h
    simpa [hx] using hbit
  · rw [BitVec.getLsbD_or, BitVec.getLsbD_or]
    cases hx : x.getLsbD i with
    | true => rfl
    | false => rw [h i hx]

theorem takeHash_inj {s : StreamHash} {h h' : HashT} :
    (s.takeHash h).val = (s.takeHash h').val ↔ ¬ s.Tells h h' := by
  unfold takeHash Tells
  rw [Prod.mk.injEq, BitVec.xor_right_inj, or_eq_or_iff]
  push Not
  rfl

end StreamHash

/-! ## The streams of the coverage store -/

/-- An id as the `int` that the hash takes in. -/
def confInt (confId : ℕ) : BitVec 32 := BitVec.ofNat 32 confId

theorem confInt_inj {i j : ℕ} (hi : (i : ℤ) ≤ intMax) (hj : (j : ℤ) ≤ intMax) :
    confInt i = confInt j ↔ i = j := by
  refine ⟨fun h => ?_, fun h => by rw [h]⟩
  have hnat := congrArg BitVec.toNat h
  unfold intMax at hi hj
  simp only [confInt, BitVec.toNat_ofNat] at hnat
  omega

namespace Location

variable {Name : Type}

/-- `cov_by_hash_`: what `add_cov_by_conf_id` has made of it. -/
def covByHash (loc : Location Name) : StreamHash :=
  StreamHash.addAll {} (loc.covBy.map confInt)

/-- `Location::hash`. -/
def hash (loc : Location Name) : HashT := loc.covByHash.digest

/-- The last configuration is taken in last. -/
theorem hash_concat {loc : Location Name} {ids : List ℕ} {i : ℕ} (h : loc.covBy = ids ++ [i]) :
    loc.hash = ((StreamHash.addAll {} (ids.map confInt)).add (confInt i)).digest := by
  rw [hash, covByHash, h, List.map_append, List.map_singleton, StreamHash.addAll_concat]

/-- Locations that only the last of their configurations tells apart. -/
theorem hash_ne_of_last {loc loc' : Location Name} {ids : List ℕ} {i j : ℕ}
    (h : loc.covBy = ids ++ [i]) (h' : loc'.covBy = ids ++ [j]) (hi : (i : ℤ) ≤ intMax)
    (hj : (j : ℤ) ≤ intMax) (hne : i ≠ j) : loc.hash ≠ loc'.hash := by
  intro heq
  rw [hash_concat h, hash_concat h'] at heq
  exact hne ((confInt_inj hi hj).mp (StreamHash.digest_add_injective _ heq))

end Location

namespace CoverageStore

variable {Name : Type} (calcHash128 : List ℤ → HashT)

/-- `hash_configs_`: what `register_config` has made of it. -/
def hashConfigs (cov : CoverageStore Name) : StreamHash :=
  StreamHash.addHashes {} (cov.configs.map fun c => calcHash128 c.hashKey)

/-- The last line of `register_config`. -/
theorem hashConfigs_registerConfig {cov cov' : CoverageStore Name} {config : Config}
    (h : cov.registerConfig config = .ok cov') :
    cov'.hashConfigs calcHash128 =
      (cov.hashConfigs calcHash128).addHash (calcHash128 config.hashKey) := by
  unfold registerConfig Config.setId at h
  obtain ⟨config', hset, hret⟩ := bind_eq_ok.mp h
  obtain ⟨-, -, hconf⟩ := bind_eq_ok.mp hset
  rw [Except.ok.injEq] at hret hconf
  rw [← hret, hashConfigs, hashConfigs, List.map_append, List.map_singleton,
    StreamHash.addHashes_concat, ← hconf]
  rfl

end CoverageStore

namespace StreamHash

/-- **The coverage hash separates neighbours.**  In every state the digest tells
the next number apart, and taking in a number is a permutation of the states.  So
locations whose lists differ in the last configuration have different hashes, and
lists that differ in one position end in different states. -/
theorem add_separates {Name : Type} :
    (∀ s : StreamHash, Function.Injective fun v => (s.add v).digest) ∧
      (∀ v, Function.Bijective fun s : StreamHash => s.add v) ∧
      (∀ (loc loc' : Location Name) (ids : List ℕ) (i j : ℕ), loc.covBy = ids ++ [i] →
        loc'.covBy = ids ++ [j] → (i : ℤ) ≤ intMax → (j : ℤ) ≤ intMax → i ≠ j →
        loc.hash ≠ loc'.hash) ∧
      ∀ (s : StreamHash) (l l' : List (BitVec 32)), l.length = l'.length →
        (∃! i : ℕ, l[i]? ≠ l'[i]?) → s.addAll l ≠ s.addAll l' := by
  refine ⟨digest_add_injective, add_bijective, ?_, ?_⟩
  · intro loc loc' ids i j hloc hloc' hi hj hne
    exact Location.hash_ne_of_last hloc hloc' hi hj hne
  · intro s l l' hlen hone
    exact foldl_ne_of_differ_once (fun v => (add_bijective v).1) add_injective hlen hone s

theorem add_separates_lists :
    Location.hash ⟨"a", none, [0, 3]⟩ ≠ Location.hash ⟨"b", none, [0, 4]⟩ ∧
      addAll {} [7, 8, 9] ≠ addAll {} [7, 5, 9] := by
  refine ⟨add_separates.2.2.1 _ _ [0] 3 4 rfl rfl (by decide) (by decide) (by decide),
    (@add_separates String).2.2.2 _ _ _ rfl ⟨1, by decide, ?_⟩⟩
  intro i hi
  by_contra hne
  match i with
  | 0 => exact hi rfl
  | 1 => exact hne rfl
  | 2 => exact hi rfl
  | i + 3 => exact hi rfl

/-- **When the last configuration hash shows.**  After any stream, replacing the
last hash changes the state, and the digest, exactly when the two hashes are told
apart where the stream stands; the digest of a store's configurations is such a
stream. -/
theorem addHash_ne_iff {Name : Type} (calcHash128 : List ℤ → HashT) :
    (∀ (hs : List HashT) (h h' : HashT),
      ((addHashes {} hs).addHash h ≠ (addHashes {} hs).addHash h' ↔
        (addHashes {} hs).Tells h h') ∧
      (((addHashes {} hs).addHash h).digest ≠ ((addHashes {} hs).addHash h').digest ↔
        (addHashes {} hs).Tells h h')) ∧
    ∀ (cov cov₁ cov₂ : CoverageStore Name) (c₁ c₂ : Config),
      cov.registerConfig c₁ = .ok cov₁ → cov.registerConfig c₂ = .ok cov₂ →
      ((cov₁.hashConfigs calcHash128).digest ≠ (cov₂.hashConfigs calcHash128).digest ↔
        (cov.hashConfigs calcHash128).Tells (calcHash128 c₁.hashKey)
          (calcHash128 c₂.hashKey)) := by
  have hdigest : ∀ (s : StreamHash) (h h' : HashT),
      (s.addHash h).digest ≠ (s.addHash h').digest ↔ s.Tells h h' := fun s h h' => by
    rw [Ne, digest_addHash_inj, takeHash_inj, not_not]
  refine ⟨fun hs h h' => ⟨?_, hdigest _ h h'⟩, ?_⟩
  · rw [Ne, addHash_inj, takeHash_inj, not_not]
  · intro cov cov₁ cov₂ c₁ c₂ h₁ h₂
    rw [CoverageStore.hashConfigs_registerConfig _ h₁,
      CoverageStore.hashConfigs_registerConfig _ h₂]
    exact hdigest _ _ _

/-- At the end of an empty stream the first words differ. -/
theorem addHash_ne_iff_empty :
    let cov : CoverageStore String := {}
    let lengthHash := fun values : List ℤ => ((BitVec.ofNat 64 values.length, 0) : HashT)
    (cov.hashConfigs lengthHash).Tells (lengthHash [0]) (lengthHash [0, 0]) ∧
      (@CoverageStore.hashConfigs String lengthHash
        { configs := [{ id := some 0, values := [0] }] }).digest ≠
      (@CoverageStore.hashConfigs String lengthHash
        { configs := [{ id := some 0, values := [0, 0] }] }).digest := by
  intro cov lengthHash
  have htells : (cov.hashConfigs lengthHash).Tells (lengthHash [0]) (lengthHash [0, 0]) := .inl (by decide)
  exact ⟨htells, ((addHash_ne_iff lengthHash).2 cov _ _ { values := [0] } { values := [0, 0] }
    rfl rfl).mpr htells⟩

/-- After one hash, two hashes that differ in a single bit are not told apart. -/
theorem addHash_loses_bit :
    ¬ ∀ (hs : List HashT) (h h' : HashT), h ≠ h' →
      (addHashes {} hs).addHash h ≠ (addHashes {} hs).addHash h' := by
  intro hall
  exact hall [(0, 0)] (0, 0) (0, 4) (by decide) (by decide)

end StreamHash

end GenTree
