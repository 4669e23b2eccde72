import Decompiler.C.Equality
import Decompiler.Infer.Store

/-!
# Unification

Two types are made equal if they have something in common. Then they share a representative from
that moment on, and so do the types that they point to.
-/

namespace Decompiler.Infer

/-- What two types have in common, if there is anything. A pointer is a word. -/
def TypeNode.meet? (x y : TypeNode) : Option TypeNode :=
  if x.size.isSome && y.size.isSome && x.size != y.size then none
  else
    let size := x.size <|> y.size
    let kinds := (x.kinds.inter y.kinds).ofSize size
    let signs := x.signs.inter y.signs
    if kinds.isEmpty || signs.isEmpty then none
    else some {
      kinds := kinds
      size := if kinds == .onlyPtr then some 32 else size
      signs := signs
      target := x.target <|> y.target }

namespace TypeStore

def link (s : TypeStore) (x y : TypeId) (common : TypeNode) : TypeStore :=
  { s with
    nodes := (s.nodes.modify x fun n => { common with parent := n.parent }).modify y fun n =>
      { n with parent := some x } }

/-- Makes two types equal, and says whether that was possible. The first argument bounds how deep
pointers are followed. -/
def unifyFrom : Nat → TypeStore → TypeId → TypeId → Except Failure (Bool × TypeStore)
  | 0, _, _, _ => throw .endless
  | fuel + 1, s, a, b => do
    let x := s.root a
    let y := s.root b
    let s := (s.compress a).compress b
    if x == y then return (true, s)
    match (s.node x).meet? (s.node y) with
    | none => return (false, s)
    | some common =>
      expect (common.signs == .all || common.kinds == .onlyInt)
      let (unified, s) ← match (s.node x).target, (s.node y).target with
        | some (.type t), some (.type u) => unifyFrom fuel s t u
        | some (.declared t), some (.declared u) => pure (t.same u, s)
        | some (.type t), some (.declared (.pointer _ u)) =>
          let (p, s) := s.add (.pointer (some (.declared u)))
          unifyFrom fuel s p t
        | some (.declared (.pointer _ u)), some (.type t) =>
          let (p, s) := s.add (.pointer (some (.declared u)))
          unifyFrom fuel s p t
        | some _, some _ => pure (false, s)
        | _, _ => pure (true, s)
      if unified then return (true, s.link x y common)
      else return (false, s)

def unify (s : TypeStore) (a b : TypeId) : Except Failure (Bool × TypeStore) :=
  unifyFrom (s.nodes.size + s.depth + 2) s a b

end TypeStore

end Decompiler.Infer
