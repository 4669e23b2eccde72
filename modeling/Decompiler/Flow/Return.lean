import Decompiler.Flow.Graph

/-!
# Early returns

Where a node other than the last but one goes straight to a simple return at the end of a function,
it gets a copy of that return to itself, so that it nests well and needs no common variable for the
returned value.
-/

namespace Decompiler.Flow

open Asm

/-- Whether a block does no more than return: it stores and calls nothing and does not touch the
registers of a returned value. -/
def isSimpleReturn (b : Block) : Bool :=
  let stores := ["sb", "sh", "sw", "swc1", "sdc1", "swr", "swl", "jal"]
  let results : List Operand := [.register ⟨"v0"⟩, .register ⟨"f0"⟩]
  b.instructions.all fun i =>
    !stores.contains i.mnemonic && results.all fun r => !i.args.contains r

def earlyReturns (d : Draft) : List Nat :=
  match d.reverse with
  | (last, exit) :: (beforeLast, _) :: _ =>
    if exit.isExit && isSimpleReturn exit.block then
      d.filterMap fun (i, n) =>
        if n.link == .next last && !n.emitGoto && i != beforeLast then some i else none
    else []
  | _ => []

/-- Gives each early return its own copy of the return. The numbers from `fresh` on are free for
the copies. A return that nothing goes to any more is dropped. -/
def copyReturns (fresh : Nat) (d : Draft) : Draft :=
  match d.getLast?, earlyReturns d with
  | none, _ => d
  | some (last, exit), early =>
    let copies := early.zipIdx.map fun (i, k) =>
      (i, (fresh + k, { exit with emitGoto := false, link := .exit (k + 1), parents := [i] }))
    let relinked := d.map fun (i, n) =>
      match copies.lookup i with
      | some (copy, _) => (i, { n with link := .next copy })
      | none =>
        if i == last then (i, { n with parents := n.parents.filter fun p => !early.contains p })
        else (i, n)
    let all := (relinked ++ copies.map Prod.snd).mergeSort fun a b =>
      a.2.block.index ≤ b.2.block.index
    match all with
    | [] => []
    | entry :: others => entry :: others.filter fun (_, n) => !n.parents.isEmpty

def Graph.ofDraft (d : Draft) : Graph :=
  let position (i : Nat) : Nat := (d.map Prod.fst).idxOf i
  ⟨(d.map fun (_, n) =>
    { n with link := n.link.map position, parents := n.parents.map position }).toArray⟩

end Decompiler.Flow
