import Decompiler.C.Syntax

/-!
# Equal types

Two types are the same if they are written alike, declared names apart. An aggregate with its
members differs from one that is named by its tag only.
-/

namespace Decompiler.C

mutual

def CType.same : CType → CType → Bool
  | .named _ _ q b, .named _ _ q' b' => q == q' && b.same b'
  | .pointer q t, .pointer q' t' => q == q' && t.same t'
  | .array t none q, .array t' none q' => t.same t' && q == q'
  | .array t (some e) q, .array t' (some e') q' => t.same t' && e.same e' && q == q'
  | .function none t, .function none t' => t.same t'
  | .function (some ps) t, .function (some ps') t' => Param.allSame ps ps' && t.same t'
  | .bare b, .bare b' => b.same b'
  | _, _ => false

def Base.same : Base → Base → Bool
  | .words ns, .words ns' => ns == ns'
  | .aggregate k n _ none, .aggregate k' n' _ none => k == k' && n == n'
  | .aggregate k n _ (some ms), .aggregate k' n' _ (some ms') =>
    k == k' && n == n' && Member.allSame ms ms'
  | .enumeration n none, .enumeration n' none => n == n'
  | .enumeration n (some es), .enumeration n' (some es') => n == n' && Enumerator.allSame es es'
  | _, _ => false

/-- Whether two declarations are written alike; here the declared names count. -/
def Decl.same : Decl → Decl → Bool
  | .mk n s f t none, .mk n' s' f' t' none => n == n' && s == s' && f == f' && t.same t'
  | .mk n s f t (some b), .mk n' s' f' t' (some b') =>
    n == n' && s == s' && f == f' && t.same t' && b.same b'
  | _, _ => false

def Member.allSame : List Member → List Member → Bool
  | [], [] => true
  | .field d :: ms, .field d' :: ms' => d.same d' && Member.allSame ms ms'
  | .pragma t :: ms, .pragma t' :: ms' => t == t' && Member.allSame ms ms'
  | _, _ => false

def Enumerator.allSame : List Enumerator → List Enumerator → Bool
  | [], [] => true
  | .mk n none :: es, .mk n' none :: es' => n == n' && Enumerator.allSame es es'
  | .mk n (some v) :: es, .mk n' (some v') :: es' =>
    n == n' && v.same v' && Enumerator.allSame es es'
  | _, _ => false

def Param.allSame : List Param → List Param → Bool
  | [], [] => true
  | .declared d :: ps, .declared d' :: ps' => d.same d' && Param.allSame ps ps'
  | .abstract t :: ps, .abstract t' :: ps' => t.same t' && Param.allSame ps ps'
  | .identifier n :: ps, .identifier n' :: ps' => n == n' && Param.allSame ps ps'
  | .ellipsis :: ps, .ellipsis :: ps' => Param.allSame ps ps'
  | .alias d :: ps, .alias d' :: ps' => d.same d' && Param.allSame ps ps'
  | _, _ => false

def Expr.same : Expr → Expr → Bool
  | .constant t, .constant t' => t == t'
  | .ident n, .ident n' => n == n'
  | .unary op e, .unary op' e' => op == op' && e.same e'
  | .stepped op e, .stepped op' e' => op == op' && e.same e'
  | .sizeOf e, .sizeOf e' => e.same e'
  | .binary op l r, .binary op' l' r' => op == op' && l.same l' && r.same r'
  | .ternary c a b, .ternary c' a' b' => c.same c' && a.same a' && b.same b'
  | .assign op l r, .assign op' l' r' => op == op' && l.same l' && r.same r'
  | .sequence es, .sequence es' => Expr.allSame es es'
  | .cast t e, .cast t' e' => t.same t' && e.same e'
  | .call f none, .call f' none => f.same f'
  | .call f (some as), .call f' (some as') => f.same f' && Expr.allSame as as'
  | .index a i, .index a' i' => a.same a' && i.same i'
  | .member e op f, .member e' op' f' => e.same e' && op == op' && f.same f'
  | .compound t es, .compound t' es' => t.same t' && Expr.allSame es es'
  | .type t, .type t' => t.same t'
  | .braces es, .braces es' => Expr.allSame es es'
  | .designated p e, .designated p' e' => Expr.allSame p p' && e.same e'
  | _, _ => false

def Expr.allSame : List Expr → List Expr → Bool
  | [], [] => true
  | e :: es, e' :: es' => e.same e' && Expr.allSame es es'
  | _, _ => false

end

end Decompiler.C
