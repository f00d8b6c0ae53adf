import GenTree.CTree

/-!
# The text format of trees

`CNode::serialize` writes a tree in pre-order: a leaf is the letter `M` or `H`,
an inner node is its variable and a blank.  A blank is also written in front of
a variable that follows a letter, so `last_is_char` is threaded through the
recursion.

`CNode::deserialize` decides the kind of a node by trying to read an `int`.
`readInt` is `std::istream >> int` in the C locale: leading white space is
skipped, an optional sign and the following digits are consumed, and the read
fails when there is no digit or the number does not fit.  A failed read stores
`0` or the nearest representable number, and at the end of the input it stores
nothing.
-/

namespace GenTree

open Outcome

/-- `std::isspace` in the C locale. -/
def isSpace (c : Char) : Bool :=
  c = ' ' || c = '\t' || c = '\n' || c = '\x0b' || c = '\x0c' || c = '\r'

/-- `std::ws`. -/
def skipWs (s : List Char) : List Char := s.dropWhile isSpace

/-- `out << i`. -/
def showInt (i : ℤ) : List Char :=
  if i < 0 then '-' :: Nat.toDigits 10 i.natAbs else Nat.toDigits 10 i.toNat

/-- The result of `inp >> i` for an `int`: whether it succeeded, the number
stored (if any), and what is left of the input. -/
structure IntRead where
  ok : Bool
  value : Option ℤ
  rest : List Char
  deriving DecidableEq, Repr

/-- The optional sign in front of a number. -/
def readSign : List Char → Bool × List Char
  | '-' :: s => (true, s)
  | '+' :: s => (false, s)
  | s => (false, s)

/-- `inp >> i` for an `int`. -/
def readInt (s : List Char) : IntRead :=
  let s := skipWs s
  if s = [] then ⟨false, none, []⟩
  else
    let (neg, s) := readSign s
    let digits := s.takeWhile Char.isDigit
    let rest := s.dropWhile Char.isDigit
    if digits = [] then ⟨false, some 0, rest⟩
    else
      let n : ℤ := (Nat.ofDigitChars 10 digits 0 : ℕ)
      let v := if neg then -n else n
      if intMax < v then ⟨false, some intMax, rest⟩
      else if v < -intMax - 1 then ⟨false, some (-intMax - 1), rest⟩
      else ⟨true, some v, rest⟩

namespace CNode

mutual

/-- `serialize`: the text and `last_is_char` afterwards. -/
def serialize (defaultHit : Bool) : CNode → List Char × Bool → List Char × Bool
  | mk nd kids, (out, lastIsChar) =>
      if nd.isLeaf then (out ++ [if nd.leafValue defaultHit then 'H' else 'M'], true)
      else
        let out := if lastIsChar then out ++ [' '] else out
        serializeChilds defaultHit kids (out ++ showInt nd.splitvar ++ [' '], false)

/-- The loop of `serialize` over the children. -/
def serializeChilds (defaultHit : Bool) :
    List CNode → List Char × Bool → List Char × Bool
  | [], st => st
  | k :: ks, st => serializeChilds defaultHit ks (serialize defaultHit k st)

end

/-- The loop of `deserialize` over the children. -/
def deserializeChilds (read : NodeData → List Char → Except Abort (CNode × List Char)) :
    List NodeData → List Char → Except Abort (List CNode × List Char)
  | [], s => .ok ([], s)
  | nd :: nds, s => do
      let (k, s) ← read nd s
      let (ks, s) ← deserializeChilds read nds s
      .ok (k :: ks, s)

/-- `deserialize`, with fuel for the depth of the recursion.  Returns the node
and what is left of the input. -/
def deserialize (dom : Domain) : ℕ → NodeData → List Char → Except Abort (CNode × List Char)
  | 0, _, _ => .error .outOfFuel
  | fuel + 1, nd, s => do
      let r := readInt s
      let nd := { nd with splitvar := r.value.getD nd.splitvar }
      if r.ok then do
        check (0 ≤ nd.splitvar ∧ nd.splitvar < (dom.nVars : ℤ)) .textSplitvar
        let kids := (List.range (dom.nValues nd.splitvar.toNat)).map fun i =>
          nd.child i ⟨nd.configs.hit, nd.configs.miss⟩
        let (childs, s) ← deserializeChilds (deserialize dom fuel) kids r.rest
        .ok (.mk nd childs, s)
      else
        match skipWs r.rest with
        | [] => .error .textEnd
        | c :: s => do
            check (c = 'H' ∨ c = 'M') .textLetter
            -- a range of `tree->configs_[0]`, which has one element, marks the letter
            let configs : Arr2 SubRange := ⟨⟨0, 0⟩, ⟨0, 0⟩⟩
            .ok (.mk { nd with configs := configs.set (c = 'H') ⟨0, 1⟩ } [], s)

end CNode

namespace CTree

/-- `serialize`. -/
def serialize (tree : CTree) : Except Abort (List Char) := do
  let root ← tree.rootNode
  .ok (root.serialize tree.defaultHit ([], false)).1

/-- `deserialize`.  `configs_[0]` becomes a vector with one null pointer. -/
def deserialize (dom : Domain) (tree : CTree) (s : List Char) :
    Except Abort (CTree × List Char) := do
  check (tree.root.isNone) .treeHasRoot
  let rootData := NodeData.root dom ⟨⟨0, 1⟩, ⟨0, 1⟩⟩
  let (root, s) ← CNode.deserialize dom (s.length + 1) rootData s
  .ok ({ tree with configs := { tree.configs with miss := [{ values := [] }] },
                   root := some root }, s)

end CTree

end GenTree
