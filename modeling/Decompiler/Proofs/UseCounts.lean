import Decompiler.Proofs.Counting
import Decompiler.Proofs.Footprint

/-!
# Expressions whose uses are counted

An expression counts as used once it is certain to be written. Then all temporaries and joins in it
have been used, and so have those in the values that are written in their place.
-/

namespace Decompiler.Eval

open Asm Code Infer Session List

inductive Session.Counted (s : Session) : Expr → Prop where
  | temp {id t} :
    0 < (s.temp id).uses →
    s.Counted (.temp id t)
  | join {id t} :
    0 < (s.join id).uses →
    (s.join id).usedBy = none →
    s.Counted (.join id t)
  | parts {e} :
    (∀ id t, e ≠ .temp id t) →
    (∀ id t, e ≠ .join id t) →
    (∀ x ∈ s.parts e, s.Counted x) →
    s.Counted e

structure Join.Grown (user : Option JoinId) (j j' : Join) : Prop where
  replacement : j'.replacement = j.replacement
  uses : j.uses ≤ j'.uses
  code : 0 < j.uses → j.usedBy = none → j'.usedBy = none
  usedBy : ∀ u, j'.usedBy = some u →
    j.usedBy = some u ∨ j.uses = 0 ∧ 0 < j'.uses ∧ user = some u

/-- What has been used is written with values that have been counted, apart from those of the
pending temporaries and of the waiting joins. The joins that have been used are listed. -/
structure Session.Sound (pending : TempId → Prop) (waiting : JoinId → Prop) (s : Session) :
    Prop where
  values : ∀ id, ¬ pending id → 0 < (s.temp id).uses ∨ (s.temp id).exactlyOnce = true →
    s.Counted (s.temp id).value
  replacements : ∀ id value, ¬ waiting id → (s.join id).replacement = some value → s.Counted value
  listed : ∀ id, 0 < (s.join id).uses ↔ id ∈ s.usedJoins.toList
  nodup : s.usedJoins.toList.Nodup

structure Session.Recounted (user : Option JoinId) (s s' : Session) : Prop where
  temps : ∀ id, (s.temp id).Grown (s'.temp id)
  joins : ∀ id, (s.join id).Grown user (s'.join id)
  used : s.usedJoins.toList <+: s'.usedJoins.toList
  joinVariables : s'.joinVariables = s.joinVariables
  sound : ∀ pending waiting, s.Sound pending waiting → s'.Sound pending waiting

section

variable {s s' : Session}

lemma parts_of_ne (other : ∀ id t, e ≠ .temp id t) : s'.parts e = s.parts e := by
  cases e with
  | temp id t => exact absurd rfl (other id t)
  | _ => rfl

lemma Session.Counted.mono (h : s.Counted e)
    (temps : ∀ id, 0 < (s.temp id).uses → 0 < (s'.temp id).uses)
    (joins : ∀ id, 0 < (s.join id).uses → (s.join id).usedBy = none →
      0 < (s'.join id).uses ∧ (s'.join id).usedBy = none) : s'.Counted e := by
  induction h with
  | temp pos => exact .temp (temps _ pos)
  | join pos code =>
    obtain ⟨pos, code⟩ := joins _ pos code
    exact .join pos code
  | parts noTemp noJoin _ ih =>
    refine .parts noTemp noJoin fun x mem => ih x ?_
    rwa [parts_of_ne noTemp] at mem

lemma Session.Counted.grown (h : s.Counted e) (temps : ∀ id, (s.temp id).Grown (s'.temp id))
    (joins : ∀ id, (s.join id).Grown user (s'.join id)) : s'.Counted e := by
  refine h.mono (fun id pos => ?_) fun id pos code => ⟨?_, ?_⟩
  · exact lt_of_lt_of_le pos (temps id).uses
  · exact lt_of_lt_of_le pos (joins id).uses
  · exact (joins id).code pos code

lemma Session.Counted.recounted (h : s.Counted e) (recounted : s.Recounted user s') :
    s'.Counted e :=
  h.grown recounted.temps recounted.joins

lemma Session.Counted.cast (h : s.Counted e) : s.Counted (.cast e t reinterpret silent) :=
  .parts nofun nofun fun _ mem => mem_singleton.1 mem ▸ h

lemma Session.Sound.of_grown
    (sound : s.Sound pending waiting) (temps : ∀ id, (s.temp id).Grown (s'.temp id))
    (joins : ∀ id, (s.join id).Grown user (s'.join id))
    (back : ∀ id, ¬ pending id → 0 < (s'.temp id).uses → 0 < (s.temp id).uses)
    (listed : (∀ id, 0 < (s'.join id).uses ↔ id ∈ s'.usedJoins.toList) ∧ s'.usedJoins.toList.Nodup) :
    s'.Sound pending waiting := by
  refine ⟨fun id notPending used => ?_, fun id value notWaiting found => ?_, listed.1, listed.2⟩
  · rw [(temps id).value]
    refine (sound.values id notPending ?_).grown temps joins
    rw [(temps id).exactlyOnce] at used
    exact used.imp_left (back id notPending)
  · rw [(joins id).replacement] at found
    exact (sound.replacements id value notWaiting found).grown temps joins

lemma Session.Sound.weaken
    (sound : s.Sound pending waiting) (le : ∀ id, pending id → pending' id) :
    s.Sound pending' waiting :=
  { sound with values := fun id other => sound.values id (mt (le id) other) }

lemma Session.Sound.settle {id}
    (sound : s.Sound (fun k => pending k ∨ k = id) waiting) (counted : s.Counted (s.temp id).value) :
    s.Sound pending waiting := by
  refine ⟨fun k notPending used => ?_, sound.replacements, sound.listed, sound.nodup⟩
  by_cases same : k = id
  · exact same ▸ counted
  · exact sound.values k (not_or.2 ⟨notPending, same⟩) used

end

namespace Join.Grown

variable {j j' : Join}

lemma refl : j.Grown user j :=
  ⟨rfl, le_refl _, fun _ code => code, fun _ => .inl⟩

lemma trans (h : j.Grown user j') (h' : j'.Grown user j'') : j.Grown user j'' where
  replacement := h'.replacement.trans h.replacement
  uses := le_trans h.uses h'.uses
  code pos code := h'.code (lt_of_lt_of_le pos h.uses) (h.code pos code)
  usedBy u by_u := by
    rcases h'.usedBy u by_u with before | ⟨unused, used, new⟩
    · rcases h.usedBy u before with before | ⟨unused, used, new⟩
      · exact .inl before
      · exact .inr ⟨unused, lt_of_lt_of_le used h'.uses, new⟩
    · exact .inr ⟨Nat.le_zero.1 (unused ▸ h.uses), used, new⟩

lemma mono (h : j.Grown none j') : j.Grown user j' :=
  ⟨h.replacement, h.uses, h.code, fun u by_u =>
    .inl ((h.usedBy u by_u).resolve_right fun new => nomatch new.2.2)⟩

end Join.Grown

namespace Session.Recounted

variable {s s' : Session}

lemma trans (h : s.Recounted user s') (h' : s'.Recounted user s'') : s.Recounted user s'' where
  temps id := (h.temps id).trans (h'.temps id)
  joins id := (h.joins id).trans (h'.joins id)
  used := h.used.trans h'.used
  joinVariables := h'.joinVariables.trans h.joinVariables
  sound pending waiting sound := h'.sound pending waiting (h.sound pending waiting sound)

lemma mono (h : s.Recounted none s') : s.Recounted user s' :=
  ⟨h.temps, fun id => (h.joins id).mono, h.used, h.joinVariables, h.sound⟩

lemma of_grown (temps : ∀ id, (s.temp id).Grown (s'.temp id))
    (joins : ∀ id, (s.join id).Grown user (s'.join id))
    (used : s.usedJoins.toList <+: s'.usedJoins.toList)
    (joinVariables : s'.joinVariables = s.joinVariables)
    (back : ∀ id, 0 < (s'.temp id).uses → 0 < (s.temp id).uses)
    (listed : (∀ id, 0 < (s.join id).uses ↔ id ∈ s.usedJoins.toList) → s.usedJoins.toList.Nodup →
      (∀ id, 0 < (s'.join id).uses ↔ id ∈ s'.usedJoins.toList) ∧ s'.usedJoins.toList.Nodup) :
    s.Recounted user s' :=
  ⟨temps, joins, used, joinVariables, fun _ _ sound =>
    sound.of_grown temps joins (fun id _ => back id) (listed sound.listed sound.nodup)⟩

lemma of_same (temps : s'.temps = s.temps) (joins : s'.joins = s.joins)
    (usedJoins : s'.usedJoins = s.usedJoins) (joinVariables : s'.joinVariables = s.joinVariables) :
    s.Recounted user s' := by
  have temp (id) : s'.temp id = s.temp id := by rw [temp, temp, temps]
  have join (id) : s'.join id = s.join id := by rw [join, join, joins]
  refine .of_grown (fun id => temp id ▸ .refl) (fun id => join id ▸ .refl) ?_ joinVariables
    (fun id pos => temp id ▸ pos) fun listed nodup => ?_
  · exact usedJoins ▸ prefix_rfl
  · simp only [join, usedJoins]
    exact ⟨listed, nodup⟩

lemma refl : s.Recounted user s :=
  .of_same rfl rfl rfl rfl

lemma of_join {id} (temps : s'.temps = s.temps) (joinVariables : s'.joinVariables = s.joinVariables)
    (others : ∀ k, k ≠ id → s'.join k = s.join k) (grown : (s.join id).Grown user (s'.join id))
    (pos : 0 < (s'.join id).uses)
    (used : s'.usedJoins = if (s.join id).uses = 0 then s.usedJoins.push id else s.usedJoins) :
    s.Recounted user s' := by
  have temp (k) : s'.temp k = s.temp k := by rw [temp, temp, temps]
  refine .of_grown (fun k => temp k ▸ .refl) (fun k => ?_) ?_ joinVariables
    (fun k pos => temp k ▸ pos) fun listed nodup => ?_
  · by_cases same : k = id
    · exact same ▸ grown
    · rw [others k same]
      exact .refl
  · rw [used]
    split
    · rw [Array.toList_push]
      exact prefix_append _ _
    · exact prefix_rfl
  · by_cases new : (s.join id).uses = 0
    · have fresh : id ∉ s.usedJoins.toList := by
        rw [← listed id, new]
        exact lt_irrefl 0
      rw [used, if_pos new, Array.toList_push]
      refine ⟨fun k => ?_, nodup_append.2 ⟨nodup, pairwise_singleton _ id, ?_⟩⟩
      · by_cases same : k = id
        · simp [same, pos]
        · rw [others k same, listed k]
          simp [same]
      · rintro a mem b mem' rfl
        exact fresh (mem_singleton.1 mem' ▸ mem)
    · rw [used, if_neg new]
      refine ⟨fun k => ?_, nodup⟩
      by_cases same : k = id
      · rw [same, ← listed id]
        exact ⟨fun _ => Nat.pos_of_ne_zero new, fun _ => pos⟩
      · rw [others k same, listed k]

end Session.Recounted

section

variable {s : Session}

lemma join_modify_self {id f} (lt : id < s.joins.size) :
    { s with joins := s.joins.modify id f }.join id = f (s.join id) := by
  simp [join, Array.getD_eq_getD_getElem?, lt, Array.getElem_modify]

lemma join_modify_of_ne {id k f} (ne : k ≠ id) :
    ({ s with joins := s.joins.modify id f } : Session).join k = s.join k := by
  simp [join, Array.getD_eq_getD_getElem?, Array.getElem?_modify, ne.symm]

lemma modifyTemp_recounted {id f} (grown : ∀ t : Temp, t.Grown (f t)) (uses : ∀ t, (f t).uses = t.uses) :
    Ensures s (modifyTemp id f) fun _ s' => s.Recounted none s' := by
  let s' : Session := { s with temps := s.temps.modify id f }
  have cases (k) : s'.temp k = s.temp k ∨ s'.temp k = f (s.temp k) := by
    by_cases same : k = id
    · subst same
      rcases lt_or_ge k s.temps.size with lt | ge
      · exact .inr (temp_modify_self lt)
      · refine .inl ?_
        simp [s', temp, Array.getD_eq_getD_getElem?, ge]
    · exact .inl (temp_modify_of_ne same)
  refine .modify (.of_grown (fun k => ?_) (fun _ => .refl) prefix_rfl rfl (fun k pos => ?_)
    fun listed nodup => ⟨listed, nodup⟩)
  · rcases cases k with same | changed
    · rw [same]
      exact .refl
    · rw [changed]
      exact grown _
  · rcases cases k with same | changed
    · rwa [same] at pos
    · rwa [changed, uses] at pos

lemma infer_recounted (step : Inference α) :
    Ensures s (infer step) fun _ s' => s.Recounted none s' := by
  refine .bind (P := fun _ s' => s.Recounted none s') (.modifyGet (.of_same rfl rfl rfl rfl))
    fun types s1 first => ?_
  refine .bind (P := fun _ s' => s.Recounted none s')
    (.modify (first.trans (.of_same rfl rfl rfl rfl))) fun _ s2 second => ?_
  exact .lift fun _ _ => second

lemma tryUnify_recounted (a b : TypeId) :
    Ensures s (tryUnify a b) fun _ s' => s.Recounted none s' :=
  (infer_recounted _).bind fun _ _ recounted => .pure recounted

def Join.usedOnce (user : Option JoinId) (j : Join) : Join :=
  { j with
    uses := j.uses + 1
    usedBy := if j.uses = 0 ∨ j.usedBy = user then user else none }

lemma Join.grown_usedOnce (user : Option JoinId) (j : Join) : j.Grown user (j.usedOnce user) := by
  refine ⟨rfl, Nat.le_succ _, fun pos code => ?_, fun u by_u => ?_⟩
  · simp only [usedOnce, ne_of_gt pos, code, false_or]
    split
    case isTrue same => exact same.symm
    case isFalse => rfl
  · simp only [usedOnce] at by_u
    split at by_u
    case isTrue first =>
      rcases first with unused | same
      · exact .inr ⟨unused, Nat.succ_pos _, by_u⟩
      · exact .inl (same.trans by_u)
    case isFalse => cases by_u

lemma countJoin_run {id user} :
    Ensures s (countJoin id user) fun _ s' =>
      s'.temps = s.temps ∧ s'.joinVariables = s.joinVariables ∧
      s'.join id = (s.join id).usedOnce user ∧ (∀ k, k ≠ id → s'.join k = s.join k) ∧
      s'.usedJoins = if (s.join id).uses = 0 then s.usedJoins.push id else s.usedJoins := by
  refine .get (.bind_expect fun lt => ?_)
  have lt := of_decide_eq_true lt
  refine .get ?_
  split
  case isTrue new =>
    have new : (s.join id).uses = 0 := by simpa using new
    let s1 : Session := { s with usedJoins := s.usedJoins.push id }
    let s2 : Session := { s1 with joins := s.joins.modify id fun j => { j with usedBy := user } }
    have self : s2.join id = { s.join id with usedBy := user } := join_modify_self lt
    refine .bind_modify ?_
    refine .bind_modify ?_
    refine .modify ⟨rfl, rfl, ?_, fun k ne => ?_, (if_pos new).symm⟩
    · rw [join_modify_self (by simpa using lt), self]
      simp [Join.usedOnce, new]
    · rw [join_modify_of_ne ne]
      exact join_modify_of_ne ne
  case isFalse old =>
    have old : (s.join id).uses ≠ 0 := by simpa using old
    refine .modify ⟨rfl, rfl, ?_, fun k ne => join_modify_of_ne ne, (if_neg old).symm⟩
    rw [join_modify_self lt]
    simp [Join.usedOnce, old]

lemma countJoin_recounted (id : JoinId) (user : Option JoinId) :
    Ensures s (countJoin id user) fun _ s' =>
      s.Recounted user s' ∧ 0 < (s'.join id).uses ∧
        ((s'.join id).usedBy = none ∨ (s'.join id).usedBy = user) := by
  refine countJoin_run.imp fun _ s' ⟨temps, joinVariables, self, others, used⟩ => ?_
  have pos : 0 < (s'.join id).uses := by
    rw [self]
    exact Nat.succ_pos _
  refine ⟨.of_join temps joinVariables others ?_ pos used, pos, ?_⟩
  · rw [self]
    exact Join.grown_usedOnce user _
  · rw [self, Join.usedOnce]
    split
    · exact .inr rfl
    · exact .inl rfl

lemma useTemp_recounted
    (deep : ∀ (s : Session) e, Ensures s (useValue e) fun _ s' => s.Recounted none s' ∧ s'.Counted e)
    (id : TempId) :
    Ensures s (useTemp useValue id) fun _ s' => s.Recounted none s' ∧ 0 < (s'.temp id).uses := by
  refine useTemp_noteUse fun lt => ?_
  have grown := grown_noteUse lt
  have pos : 0 < ((s.noteUse id).temp id).uses := by
    rw [uses_noteUse lt]
    exact Nat.succ_pos _
  have joins (k : JoinId) : (s.join k).Grown none ((s.noteUse id).join k) := .refl
  -- Until its value is counted, the temporary is pending.
  have waits {pending : TempId → Prop} {waiting : JoinId → Prop} (sound : s.Sound pending waiting) :
      (s.noteUse id).Sound (fun k => pending k ∨ k = id) waiting := by
    refine (sound.weaken fun k => .inl).of_grown grown joins (fun k other pos => ?_)
      ⟨sound.listed, sound.nodup⟩
    rwa [noteUse, temp_modify_of_ne fun same => other (.inr same)] at pos
  refine ⟨fun _ => ?_, fun _ before => ?_⟩
  · refine (deep _ _).imp ?_
    rintro _ s' ⟨recounted, counted⟩
    constructor
    · refine ⟨fun k => (grown k).trans (recounted.temps k), recounted.joins, recounted.used,
        recounted.joinVariables, fun pending waiting sound => ?_⟩
      refine (recounted.sound _ _ (waits sound)).settle ?_
      rwa [((grown id).trans (recounted.temps id)).value]
    · exact lt_of_lt_of_le pos (recounted.temps id).uses
  · refine ⟨⟨grown, fun _ => .refl, prefix_rfl, rfl, fun pending waiting sound => ?_⟩, pos⟩
    by_cases waitsItself : pending id
    · exact (waits sound).weaken fun k => Or.rec (fun h => h) fun same => same ▸ waitsItself
    · refine (waits sound).settle ?_
      rw [(grown id).value]
      exact (sound.values id waitsItself before).grown grown joins

/-- Using an expression counts it and all its parts. -/
lemma useFrom_recounted :
    Ensures s (useFrom depth e) fun _ s' => s.Recounted none s' ∧ s'.Counted e := by
  induction depth generalizing s e with
  | zero => exact .throw _
  | succ depth ih =>
    have all (es : List Expr) (s : Session) : Ensures s (es.forM (useFrom depth)) fun _ s' =>
        s.Recounted none s' ∧ ∀ x ∈ es, s'.Counted x := by
      induction es generalizing s with
      | nil => exact .pure ⟨.refl, by simp⟩
      | cons x es ihs =>
        refine ih.bind ?_
        rintro _ s1 ⟨first, counted⟩
        refine (ihs s1).imp fun _ s' others => ⟨first.trans others.1, ?_⟩
        exact forall_mem_cons.2 ⟨counted.recounted others.1, others.2⟩
    have temp (s) (id) :=
      useTemp_recounted (s := s) (fun s e => ih) id
    cases e with
    | comma => exact .throw _
    | cast operand type =>
      refine (tryUnify_recounted _ _).bind fun _ s1 first => ?_
      exact ih.imp fun _ s' second => ⟨first.trans second.1, second.2.cast⟩
    | temp id => exact (temp s id).imp fun _ s' h => ⟨h.1, .temp h.2⟩
    | forced id t =>
      have marked := @modifyTemp_recounted s id
        (fun t => { t with trivial := false, forced := true })
        (fun _ => ⟨rfl, rfl, le_refl _, by simp⟩) fun _ => rfl
      refine marked.bind fun _ s1 first => (temp s1 id).bind fun _ s2 second => ?_
      refine (temp s2 id).imp fun _ s' third => ⟨(first.trans second.1).trans third.1, ?_⟩
      exact .parts (by simp) (by simp) fun _ mem => mem_singleton.1 mem ▸ .temp third.2
    | join id t =>
      refine (countJoin_recounted id none).bind ?_
      rintro _ s1 ⟨first, pos, code⟩
      refine .get ?_
      have counted : s1.Counted (.join id t) := .join pos (or_self_iff.1 code)
      split
      · exact ih.imp fun _ s' second => ⟨first.trans second.1, counted.recounted second.1⟩
      · exact .pure ⟨first, counted⟩
    | _ =>
      refine .get ((all _ s).imp fun _ s' h => ⟨h.1, ?_⟩)
      exact .parts (by simp) (by simp) h.2

/-- After it is used, an expression is counted. -/
lemma use_recounted (e : Expr) : Ensures s (use e) fun _ s' => s.Recounted none s' ∧ s'.Counted e :=
  .get useFrom_recounted

lemma Notes.recounted {x : Evaluation α} (h : Noting x) :
    Ensures s x fun _ s' => s.Recounted none s' := by
  induction h generalizing s with
  | pure => exact .pure .refl
  | throw e => exact .throw e
  | get => exact .get (.pure .refl)
  | lift => exact .lift fun _ _ => .refl
  | modify h =>
    have same := h s
    exact .modify (.of_same same.temps same.joins same.usedJoins same.joinVariables)
  | modifyGet h =>
    have same := h s
    exact .modifyGet (.of_same same.temps same.joins same.usedJoins same.joinVariables)
  | name => exact modifyTemp_recounted (fun _ => ⟨rfl, rfl, le_refl _, id⟩) fun _ => rfl
  | use e => exact (use_recounted e).imp fun _ _ h => h.1
  | bind _ _ ihx ihf =>
    refine ihx.bind fun a s1 first => ?_
    exact (ihf a).imp fun _ _ second => first.trans second

end

end Decompiler.Eval
