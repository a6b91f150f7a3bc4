import HeaderCodec.Huffman.Code

/-! A bit pattern is read by walking from the root, left on a zero and right on a one, until a leaf
names the symbol. -/

namespace HeaderCodec.Huffman

inductive Tree
  | missing
  | leaf (symbol : Symbol)
  | node (zero one : Tree)
  deriving DecidableEq, Repr

namespace Tree

def child : Tree → Bool → Tree
  | node zero one, bit => if bit then one else zero
  | _, _ => missing

/-- Puts a symbol at the end of a path, growing the nodes that are not there yet. -/
def insert : Tree → List Bool → Symbol → Tree
  | _, [], symbol => leaf symbol
  | node zero one, bit :: path, symbol =>
    if bit then node zero (one.insert path symbol) else node (zero.insert path symbol) one
  | _, bit :: path, symbol =>
    if bit then node missing (missing.insert path symbol)
    else node (missing.insert path symbol) missing

end Tree

def codeTree : Tree :=
  symbolPaths.foldl (fun tree (symbol, path) => tree.insert path symbol) .missing

end HeaderCodec.Huffman
