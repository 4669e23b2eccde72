import Decompiler.Code.Expr

/-!
# Same expressions

Two accesses to the same variable, symbol or memory are the same expression, whatever is known about
their types. An operation is only the same as itself: each one has a type of its own, so this is
what comparing all parts and types comes to.
-/

namespace Decompiler.Code

mutual

def Expr.identical : Expr → Expr → Bool
  | .error w t, .error w' t' => t == t' && w == w'
  | .secondHalf t, .secondHalf t' => t == t'
  | .binary l op r t f, .binary l' op' r' t' f' =>
    t == t' && op == op' && f == f' && l.identical l' && r.identical r'
  | .unary op e t, .unary op' e' t' => t == t' && op == op' && e.identical e'
  | .test e t n, .test e' t' n' => t == t' && n == n' && e.identical e'
  | .comma ss c, .comma ss' c' => Stmt.allIdentical ss ss' && c.identical c'
  | .cast e t r s, .cast e' t' r' s' => t == t' && r == r' && s == s' && e.identical e'
  | .call f as t, .call f' as' t' => t == t' && f.identical f' && Expr.allIdentical as as'
  | .stackVar n t, .stackVar n' t' => t == t' && n == n'
  | .argument n c t, .argument n' c' t' => t == t' && n == n' && c == c'
  | .outgoing n t, .outgoing n' t' => t == t' && n == n'
  | .member e n s f t, .member e' n' s' f' t' =>
    t == t' && n == n' && s == s' && f == f' && e.identical e'
  | .element b i t, .element b' i' t' => t == t' && b.identical b' && i.identical i'
  | .symbol n t, .symbol n' t' => t == t' && n == n'
  | .literal n t, .literal n' t' => t == t' && n == n'
  | .string d t, .string d' t' => t == t' && d == d'
  | .address e t, .address e' t' => t == t' && e.identical e'
  | .upperBytes e n b t, .upperBytes e' n' b' t' =>
    t == t' && n == n' && e.identical e' && b.identical b'
  | .upperBytesAt e n b t, .upperBytesAt e' n' b' t' =>
    t == t' && n == n' && b == b' && e.identical e'
  | .threeBytes e t, .threeBytes e' t' => t == t' && e.identical e'
  | .unaligned e t, .unaligned e' t' => t == t' && e.identical e'
  | .temp i t, .temp i' t' => t == t' && i == i'
  | .forced i t, .forced i' t' => t == t' && i == i'
  | .join i t, .join i' t' => t == t' && i == i'
  | _, _ => false

def Expr.allIdentical : List Expr → List Expr → Bool
  | [], [] => true
  | e :: es, e' :: es' => e.identical e' && Expr.allIdentical es es'
  | _, _ => false

def Stmt.identical : Stmt → Stmt → Bool
  | .setTemp i, .setTemp i' => i == i'
  | .setJoin i e, .setJoin i' e' => i == i' && e.identical e'
  | .run e, .run e' => e.identical e'
  | .store e d, .store e' d' => e.identical e' && d.identical d'
  | .comment t, .comment t' => t == t'
  | _, _ => false

def Stmt.allIdentical : List Stmt → List Stmt → Bool
  | [], [] => true
  | s :: ss, s' :: ss' => s.identical s' && Stmt.allIdentical ss ss'
  | _, _ => false

end

/-- Expressions that agree in all parts are equal. -/
theorem Expr.eq_of_identical {e e' : Expr} : e.identical e' → e = e' := by
  apply @Expr.identical.induct (fun e e' => e.identical e' → e = e')
    (fun es es' => Expr.allIdentical es es' → es = es')
    (fun ss ss' => Stmt.allIdentical ss ss' → ss = ss') (fun s s' => s.identical s' → s = s')
  all_goals
    intros
    simp_all only [Expr.identical, Stmt.identical, Expr.allIdentical, Stmt.allIdentical,
      Bool.and_eq_true, beq_iff_eq, Bool.false_eq_true, true_implies]

/-- Whether two expressions stand for the same thing: the same place, value or operation. -/
def Expr.same : Expr → Expr → Bool
  | .stackVar n _, .stackVar n' _ => n == n'
  | .argument n _ _, .argument n' _ _ => n == n'
  | .outgoing n _, .outgoing n' _ => n == n'
  | .member e n s _ _, .member e' n' s' _ _ => n == n' && s == s' && e.same e'
  | .element b i _, .element b' i' _ => b.same b' && i.same i'
  | .symbol n _, .symbol n' _ => n == n'
  | .literal n _, .literal n' _ => n == n'
  | .address e _, .address e' _ => e.same e'
  | .upperBytes e n b _, .upperBytes e' n' b' _ => n == n' && e.same e' && b.same b'
  | .upperBytesAt e n b _, .upperBytesAt e' n' b' _ => n == n' && b == b' && e.same e'
  | .threeBytes e _, .threeBytes e' _ => e.same e'
  | .unaligned e _, .unaligned e' _ => e.same e'
  | .temp i _, .temp i' _ => i == i'
  | .forced i _, .forced i' _ => i == i'
  | .join i _, .join i' _ => i == i'
  | e, e' => e.identical e'

end Decompiler.Code
