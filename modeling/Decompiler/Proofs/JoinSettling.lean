import Decompiler.Eval.Function
import Decompiler.Proofs.BlockUses

/-!
# Settling joins

When all blocks have been evaluated, the values that are returned are used. Then every join that is
used gets a value, or it is set where the paths to its node end.
-/

namespace Decompiler.Eval

open Asm Code Infer Decompiler.Flow List

def Precedes (joins : List JoinId) (id later : JoinId) : Prop :=
  ∃ front behind, joins = front ++ behind ∧ id ∈ front ∧ later ∈ behind

def Session.HandsOn (s : Session) (id : JoinId) (value : Expr) : Prop :=
  ∃ source t, Casted (.join source t) value ∧ 0 < (s.join source).uses ∧
    ((s.join source).usedBy = none ∨ (s.join source).usedBy = some id)

structure Session.SetsJoin (done : List JoinId) (s : Session) (id : JoinId) (value : Expr) :
    Prop where
  settled : id ∈ done
  unreplaced : (s.join id).replacement = none
  value : s.Counted value ∨ s.HandsOn id value

/-- What is known when some joins have been settled. The values of the waiting ones are about to be
counted. -/
structure Session.Settling (waiting : JoinId → Prop) (done : List JoinId) (s : Session) :
    Prop where
  sound : s.Sound (fun _ => False) waiting
  results : ∀ i, s.CoversResult (s.SetsJoin done) (s.block i)
  returned : ∀ i e, (s.block i).returnValue = some e → s.Counted e
  users : ∀ id user, (s.join id).usedBy = some user →
    user ∈ done ∧ (s.join user).replacement = none ∧ Precedes s.usedJoins.toList user id
  replaced : ∀ id, (s.join id).replacement ≠ none → id ∈ done
  listed : done <+: s.usedJoins.toList
  named : ∀ id ∈ s.joinVariables.toList, 0 < (s.join id).uses ∧ (s.join id).usedBy = none

section Settling

variable {s s' : Session} {waiting : JoinId → Prop} {done : List JoinId} {user : Option JoinId}
  {id : JoinId} {e value : Expr}

lemma Session.HandsOn.grown (h : s.HandsOn id value)
    (joins : ∀ id, (s.join id).Grown user (s'.join id)) : s'.HandsOn id value := by
  obtain ⟨source, t, casted, pos, users⟩ := h
  refine ⟨source, t, casted, lt_of_lt_of_le pos (joins source).uses, ?_⟩
  cases usedBy : (s'.join source).usedBy with
  | none => exact .inl rfl
  | some u =>
    rcases (joins source).usedBy u usedBy with before | ⟨unused, -⟩
    · rw [before] at users
      exact .inr (users.resolve_left nofun)
    · exact absurd unused (ne_of_gt pos)

lemma Session.HandsOn.cast (h : s.HandsOn id (.join source t))
    (casted : Casted (.join source t) value) : s.HandsOn id value := by
  obtain ⟨source', t', same | ⟨_, no⟩, used⟩ := h
  · cases same
    exact ⟨source, t, casted, used⟩
  · cases no

lemma Session.Settling.of_grown (h : s.Settling waiting done)
    (temps : ∀ id, (s.temp id).Grown (s'.temp id))
    (joins : ∀ id, (s.join id).Grown user (s'.join id))
    (by_user : ∀ u, user = some u → u ∈ done ∧ (s.join u).replacement = none)
    (sound : s'.Sound (fun _ => False) waiting) (blocks : s'.blocks = s.blocks)
    (used : s.usedJoins.toList <+: s'.usedJoins.toList)
    (named : ∀ id ∈ s'.joinVariables.toList, id ∈ s.joinVariables.toList ∨
      0 < (s'.join id).uses ∧ (s'.join id).usedBy = none) : s'.Settling waiting done where
  sound := sound
  results i := by
    rw [block_of_blocks blocks]
    refine ((h.results i).grows (.of_grown temps joins)).imp fun id value set => ?_
    refine ⟨set.settled, (joins id).replacement.trans set.unreplaced, ?_⟩
    exact set.value.imp (·.grown temps joins) (·.grown joins)
  returned i e found := by
    rw [block_of_blocks blocks] at found
    exact (h.returned i e found).grown temps joins
  users id u by_u := by
    rw [(joins u).replacement]
    obtain ⟨new, more⟩ := used
    rcases (joins id).usedBy u by_u with before | ⟨unused, pos, isUser⟩
    · obtain ⟨mem, none, front, behind, parts, first, second⟩ := h.users id u before
      refine ⟨mem, none, front, behind ++ new, ?_, first, mem_append_left _ second⟩
      rw [← more, parts, append_assoc]
    · obtain ⟨mem, none⟩ := by_user u isUser
      refine ⟨mem, none, s.usedJoins.toList, new, more.symm, h.listed.subset mem, ?_⟩
      have listed := (sound.listed id).1 pos
      rw [← more] at listed
      refine (mem_append.1 listed).resolve_left fun old => ?_
      exact absurd unused (ne_of_gt ((h.sound.listed id).2 old))
  replaced id found := h.replaced id ((joins id).replacement ▸ found)
  listed := h.listed.trans used
  named id mem := by
    rcases named id mem with old | new
    · obtain ⟨pos, code⟩ := h.named id old
      exact ⟨lt_of_lt_of_le pos (joins id).uses, (joins id).code pos code⟩
    · exact new

lemma Session.Settling.recounted (h : s.Settling waiting done) (recounted : s.Recounted user s')
    (by_user : ∀ u, user = some u → u ∈ done ∧ (s.join u).replacement = none)
    (blocks : s'.blocks = s.blocks) : s'.Settling waiting done := by
  refine h.of_grown recounted.temps recounted.joins by_user (recounted.sound _ _ h.sound) blocks
    recounted.used fun id mem => .inl ?_
  rwa [recounted.joinVariables] at mem

lemma Notes.settling {x : Evaluation α} (noting : Noting x) (h : s.Settling waiting done) :
    Ensures s x fun _ s' => s'.Settling waiting done ∧ s.Recounted none s' :=
  (noting.recounted.and noting.noted.ensures).imp fun _ _ ⟨recounted, noted⟩ =>
    ⟨h.recounted recounted nofun noted.blocks, recounted⟩

structure Session.Returning (pending : List Nat) (s : Session) : Prop extends s.Clean where
  results : ∀ i, s.CoversResult noSetting (s.block i)
  returned : ∀ i e, (s.block i).returnValue = some e → i ∈ pending ∨ s.Counted e

lemma Notes.returning {x : Evaluation α} (noting : Noting x) (h : s.Returning pending) :
    Ensures s x fun _ s' => s'.Returning pending ∧ s'.blocks = s.blocks := by
  refine (noting.recounted.and noting.noted.ensures).imp fun _ s' ⟨recounted, noted⟩ => ?_
  refine ⟨⟨recounted.clean h.toClean, fun i => ?_, fun i e found => ?_⟩, noted.blocks⟩
  · rw [block_of_blocks noted.blocks]
    exact (h.results i).grows recounted.grows
  · rw [block_of_blocks noted.blocks] at found
    exact (h.returned i e found).imp_right (·.recounted recounted)

lemma Session.Returning.settled (h : s.Returning (n :: l))
    (counted : ∀ e, (s.block n).returnValue = some e → s.Counted e) : s.Returning l := by
  refine ⟨h.toClean, h.results, fun i e found => ?_⟩
  rcases h.returned i e found with mem | done
  · rcases mem_cons.1 mem with rfl | mem
    · exact .inr (counted e found)
    · exact .inl mem
  · exact .inr done

lemma Session.Returning.setReturn (h : s.Returning (n :: l)) (value : Option Expr) :
    Ensures s (modifyBlock n fun b => { b with returnValue := value }) fun _ s' =>
      s'.Returning (n :: l) ∧ ∀ e, (s'.block n).returnValue = some e → value = some e := by
  let s1 : Session :=
    { s with blocks := s.blocks.modify n fun b => { b with returnValue := value } }
  have same : s.Recounted none s1 := .of_same rfl rfl rfl rfl
  refine .modify ?_
  refine ⟨⟨same.clean h.toClean, fun i => ?_, fun i e found => ?_⟩, fun e found => ?_⟩
  · have covers := (h.results i).grows same.grows
    rcases block_modify s n i fun b => { b with returnValue := value } with ⟨kept, -⟩ | ⟨-, set⟩
    · rwa [kept]
    · rw [set]
      exact ⟨covers.statements, covers.condition, covers.switchValue⟩
  · rcases block_modify s n i fun b => { b with returnValue := value } with ⟨kept, -⟩ | ⟨rfl, -⟩
    · rw [kept] at found
      exact (h.returned i e found).imp_right (·.recounted same)
    · exact .inl mem_cons_self
  · rcases block_modify s n n fun b => { b with returnValue := value } with
      ⟨kept, outside⟩ | ⟨-, set⟩
    · rw [kept, outside rfl] at found
      cases found
    · rwa [set] at found

/-- Using the returned values is the first step of settling. -/
lemma settleReturns_settling (h : s.Evaluated) (hasValue : Bool) (type : TypeId) :
    Ensures s (settleReturns hasValue type) fun _ s' => s'.Settling (fun _ => False) [] := by
  have start : s.Returning s.exits.toList := by
    refine ⟨h.toClean, h.results, fun i e found => .inl (h.exits i ?_)⟩
    exact Option.ne_none_iff_exists'.2 ⟨e, found⟩
  refine .get ((Ensures.forM_rest start fun n l s h => .get ?_).imp fun _ s' h => ?_)
  · cases found : (s.block n).returnValue with
    | none => exact .pure (h.settled (by simp [found]))
    | some e =>
      refine .ite (fun _ => ?_) fun _ => ?_
      · refine (asType_noting.returning h).bind fun value s1 kept => ?_
        refine (kept.1.setReturn (some value)).bind ?_
        rintro _ s2 ⟨h2, set⟩
        refine ((use_recounted value).and (use_noting.returning h2)).imp ?_
        rintro _ s3 ⟨⟨_, counted⟩, h3, blocks⟩
        refine h3.settled fun e' found => ?_
        rw [block_of_blocks blocks] at found
        exact Option.some.inj (set e' found) ▸ counted
      · refine (h.setReturn none).imp fun _ s1 h1 => h1.1.settled fun e' found => ?_
        cases h1.2 e' found
  · refine ⟨h.sound, fun i => (h.results i).imp fun _ _ => False.elim,
      fun i e found => (h.returned i e found).resolve_left (by simp), fun id u by_u => ?_,
      fun id found => absurd (h.joins id).2 found, nil_prefix, fun id mem => ?_⟩
    · rw [(h.joins id).1] at by_u
      cases by_u
    · rw [h.joinVariables] at mem
      cases mem

lemma join_modify (s : Session) (id k : JoinId) (f : Join → Join) :
    { s with joins := s.joins.modify id f }.join k = s.join k ∨
      k = id ∧ { s with joins := s.joins.modify id f }.join k = f (s.join k) := by
  by_cases same : k = id
  · subst same
    rcases lt_or_ge k s.joins.size with lt | ge
    · exact .inr ⟨rfl, join_modify_self lt⟩
    · refine .inl ?_
      simp [Session.join, Array.getD_eq_getD_getElem?, ge]
  · exact .inl (join_modify_of_ne same)

lemma counted_of_casted (casted : Casted e value) (counted : s.Counted e) : s.Counted value := by
  rcases casted with rfl | ⟨t, rfl⟩
  · exact counted
  · exact counted.cast

lemma Session.Settling.counted (h : s.Settling (fun k => k = id) done)
    (counted : ∀ value, (s.join id).replacement = some value → s.Counted value) :
    s.Settling (fun _ => False) done := by
  refine { h with sound := { h.sound with replacements := fun k value _ found => ?_ } }
  by_cases same : k = id
  · exact counted value (same ▸ found)
  · exact h.sound.replacements k value same found

lemma Session.Settling.settle (h : s.Settling waiting done)
    (next : done ++ [id] <+: s.usedJoins.toList) : s.Settling waiting (done ++ [id]) where
  sound := h.sound
  results i := (h.results i).imp fun _ _ set =>
    ⟨mem_append_left _ set.settled, set.unreplaced, set.value⟩
  returned := h.returned
  users k u by_u :=
    have known := h.users k u by_u
    ⟨mem_append_left _ known.1, known.2⟩
  replaced k found := mem_append_left _ (h.replaced k found)
  listed := next
  named := h.named

/-- A join with one value is replaced, and the value is used as often. -/
lemma replace_settling (h : s.Settling (fun _ => False) done) (new : id ∉ done)
    (next : done ++ [id] <+: s.usedJoins.toList) (pos : 0 < (s.join id).uses)
    (casted : Casted e value) (values : List Expr) (type : TypeId) :
    Ensures s (do
      modifyJoin id fun j => { j with replacement := some value }
      values.forM fun e => tryUnify e.type type
      (range ((← get).join id).uses).forM fun _ => use e)
      fun _ s' => s'.Settling (fun _ => False) (done ++ [id]) := by
  let s1 : Session :=
    { s with joins := s.joins.modify id fun j => { j with replacement := some value } }
  have joins (k) : s1.join k = s.join k ∨
      k = id ∧ s1.join k = { s.join k with replacement := some value } :=
    join_modify s id k _
  have uses (k) : (s1.join k).uses = (s.join k).uses ∧
      (s1.join k).usedBy = (s.join k).usedBy := by
    rcases joins k with same | ⟨-, changed⟩
    · rw [same]
      exact ⟨rfl, rfl⟩
    · rw [changed]
      exact ⟨rfl, rfl⟩
  have others (k) (mem : k ∈ done) : s1.join k = s.join k := by
    refine (joins k).resolve_right fun ⟨same, _⟩ => ?_
    exact new (same ▸ mem)
  have grows : s.Grows s1 := by
    refine ⟨fun _ => fun pos => pos, fun k pos code => ?_⟩
    rw [(uses k).1, (uses k).2]
    exact ⟨pos, code⟩
  have waits : s1.Settling (fun k => k = id) (done ++ [id]) := by
    refine ⟨⟨fun k _ used => ?_, fun k v other found => ?_, fun k => ?_, h.sound.nodup⟩,
      fun i => ?_, fun i e found => ?_, fun k u by_u => ?_, fun k found => ?_, next,
      fun k mem => ?_⟩
    · exact (h.sound.values k nofun used).grows grows
    · rw [(joins k).resolve_right fun ⟨same, _⟩ => other same] at found
      exact (h.sound.replacements k v nofun found).grows grows
    · rw [(uses k).1]
      exact h.sound.listed k
    · refine ((h.results i).grows grows).imp fun k v set => ?_
      refine ⟨mem_append_left _ set.settled, ?_, set.value.imp (·.grows grows) ?_⟩
      · rw [others k set.settled]
        exact set.unreplaced
      · rintro ⟨source, t, casted, used⟩
        refine ⟨source, t, casted, ?_⟩
        rwa [(uses source).1, (uses source).2]
    · exact (h.returned i e found).grows grows
    · rw [(uses k).2] at by_u
      obtain ⟨mem, none, precedes⟩ := h.users k u by_u
      rw [others u mem]
      exact ⟨mem_append_left _ mem, none, precedes⟩
    · rcases joins k with same | ⟨rfl, -⟩
      · exact mem_append_left _ (h.replaced k (same ▸ found))
      · exact mem_append_right _ mem_cons_self
    · rw [(uses k).1, (uses k).2]
      exact h.named k mem
  refine .bind_modify ?_
  refine (Notes.forM.settling waits).bind
    fun _ s2 ⟨h2, first⟩ => .get ?_
  have some_use : 0 < (s2.join id).uses :=
    lt_of_lt_of_le ((uses id).1 ▸ pos) (first.joins id).uses
  obtain ⟨n, more⟩ := Nat.exists_eq_succ_of_ne_zero (ne_of_gt some_use)
  rw [more, range_succ_eq_map]
  refine ((use_recounted e).and (use_noting.settling h2)).bind
    fun _ s3 ⟨⟨_, counted⟩, h3, second⟩ => ?_
  refine (Notes.forM.settling h3).imp fun _ s4 ⟨h4, third⟩ => ?_
  refine h4.counted fun v found => ?_
  have kept := ((first.trans second).trans third).joins id |>.replacement
  rw [kept] at found
  rcases joins id with same | ⟨-, changed⟩
  · refine absurd (h.replaced id ?_) new
    rw [← same, found]
    exact nofun
  · rw [changed] at found
    exact Option.some.inj found ▸ counted_of_casted casted (counted.recounted third)

lemma useByJoin_recounted (source user : JoinId) : Ensures s (useByJoin source user) fun _ s' =>
    s.Recounted (some user) s' ∧ s'.blocks = s.blocks ∧ ∀ t, s'.HandsOn user (.join source t) := by
  refine ((countJoin_recounted source (some user)).and (countJoin_noted _ _).ensures).bind ?_
  rintro _ s1 ⟨⟨first, pos, users⟩, noted⟩
  refine .get ?_
  have hands (t) : s1.HandsOn user (.join source t) := ⟨source, t, .inl rfl, pos, users⟩
  split
  · rename_i value _
    refine ((use_recounted value).and use_noting.noted.ensures).imp ?_
    rintro _ s2 ⟨⟨second, -⟩, noted'⟩
    exact ⟨first.trans second.mono, noted'.blocks.trans noted.blocks,
      fun t => (hands t).grown second.joins⟩
  · exact .pure ⟨first, noted.blocks, hands⟩

lemma setAtEnd_settling (h : s.Settling (fun _ => False) done) (set : s.SetsJoin done id value) :
    Ensures s (modifyBlock p fun b => { b with statements := b.statements ++ [.setJoin id value] })
      fun _ s' => s'.Settling (fun _ => False) done ∧ s'.joins = s.joins := by
  let add (b : BlockResult) : BlockResult :=
    { b with statements := b.statements ++ [.setJoin id value] }
  let s1 : Session := { s with blocks := s.blocks.modify p add }
  have same : s.Recounted none s1 := .of_same rfl rfl rfl rfl
  have blocks (i) : s1.block i = s.block i ∨ s1.block i = add (s.block i) :=
    (block_modify s p i add).imp And.left And.right
  have keep {id} {value} (set : s.SetsJoin done id value) :
      s1.SetsJoin done id value :=
    ⟨set.settled, set.unreplaced, set.value.imp (·.recounted same) (·.grown same.joins)⟩
  refine .modify ?_
  refine ⟨⟨same.sound _ _ h.sound, fun i => ?_, fun i e found => ?_, h.users, h.replaced, h.listed,
    h.named⟩, rfl⟩
  · have covers := ((h.results i).grows same.grows).imp fun _ _ => keep
    rcases blocks i with kept | added
    · rwa [kept]
    · rw [added]
      refine ⟨fun stmt mem => ?_, covers.condition, covers.switchValue⟩
      rcases mem_append.1 mem with old | new
      · exact covers.statements stmt old
      · obtain rfl := mem_singleton.1 new
        exact keep set
  · refine (h.returned i e ?_).recounted same
    rcases blocks i with kept | added
    · rwa [kept] at found
    · rwa [added] at found

/-- A join with several values is set at the end of each parent. -/
lemma setEach_settling (h : s.Settling (fun _ => False) done) (mem : id ∈ done)
    (unreplaced : (s.join id).replacement = none) (parents : List Nat) (r : Register)
    (type : TypeId) : Ensures s (parents.forM fun p => do
      let e ← readFrom ((← get).block p).registers r
      match e with
      | .join source _ => useByJoin source id
      | _ => use e
      let value ← asType e type true
      modifyBlock p fun b => { b with statements := b.statements ++ [.setJoin id value] })
      fun _ s' => s'.Settling (fun _ => False) done := by
  have last (p) (e) (s) (h : s.Settling (fun _ => False) done)
      (unreplaced : (s.join id).replacement = none)
      (known : s.Counted e ∨ ∃ source t, e = .join source t ∧ s.HandsOn id (.join source t)) :
      Ensures s (do
        let value ← asType e type true
        modifyBlock p fun b => { b with statements := b.statements ++ [.setJoin id value] })
        fun _ s' => s'.Settling (fun _ => False) done ∧ (s'.join id).replacement = none := by
    refine ((asType_noting.settling h).and (asType_keeps e type true)).bind ?_
    rintro value s1 ⟨⟨h1, first⟩, -, casted⟩
    have unreplaced1 := (first.joins id).replacement.trans unreplaced
    have set : s1.SetsJoin done id value := by
      refine ⟨mem, unreplaced1, ?_⟩
      rcases known with counted | ⟨source, t, rfl, hands⟩
      · exact .inl (counted_of_casted casted (counted.recounted first))
      · exact .inr ((hands.grown first.joins).cast casted)
    refine (setAtEnd_settling h1 set).imp fun _ s2 h2 => ⟨h2.1, ?_⟩
    rwa [Session.join, h2.2]
  refine (Ensures.forM (I := fun s' => s'.Settling (fun _ => False) done ∧
    (s'.join id).replacement = none) ⟨h, unreplaced⟩ ?_).imp fun _ _ h => h.1
  rintro p - s ⟨h, unreplaced⟩
  refine .get ((readFrom_noting.settling h).bind ?_)
  rintro e s1 ⟨h1, first⟩
  have unreplaced1 := (first.joins id).replacement.trans unreplaced
  cases e with
  | join source t =>
    refine (useByJoin_recounted source id).bind ?_
    rintro _ s2 ⟨second, blocks, hands⟩
    refine last p _ s2 (h1.recounted second ?_ blocks) ?_ (.inr ⟨source, t, rfl, hands t⟩)
    · rintro u same
      exact Option.some.inj same ▸ ⟨mem, unreplaced1⟩
    · exact (second.joins id).replacement.trans unreplaced1
  | _ =>
    refine ((use_recounted _).and (use_noting.settling h1)).bind ?_
    rintro _ s2 ⟨⟨-, counted⟩, h2, second⟩
    exact last p _ s2 h2 ((second.joins id).replacement.trans unreplaced1) (.inl counted)

lemma joinedValues_noting : Noting (joinedValues g node r) := by
  unfold joinedValues
  infer_instance

lemma settleJoin_settling (g : Graph) (h : s.Settling (fun _ => False) done) (new : id ∉ done)
    (next : done ++ [id] <+: s.usedJoins.toList) : Ensures s (settleJoin g id) fun _ s' =>
      s'.Settling (fun _ => False) (done ++ [id]) := by
  refine .get (.bind_expect fun pos => ?_)
  have pos := of_decide_eq_true pos
  refine .bind_expect fun _ => ?_
  refine (joinedValues_noting.settling h).bind fun values s1 ⟨h1, first⟩ => .get ?_
  have pos1 : 0 < (s1.join id).uses := lt_of_lt_of_le pos (first.joins id).uses
  refine .ite (fun _ => ?_) fun _ => ?_
  · refine ((asType_noting.settling h1).and (asType_keeps _ _ _)).bind
      fun value s2 ⟨⟨h2, second⟩, _, casted⟩ => ?_
    have pos2 : 0 < (s2.join id).uses := lt_of_lt_of_le pos1 (second.joins id).uses
    exact replace_settling h2 new ((next.trans first.used).trans second.used) pos2 casted values _
  · have unreplaced : (s1.join id).replacement = none := by
      by_contra found
      exact new (h1.replaced id found)
    refine setEach_settling (h1.settle (next.trans first.used)) ?_ unreplaced _ _ _
    exact mem_append_right _ mem_cons_self

/-- Joins that come into use while others are settled are settled too. -/
lemma settleFrom_settling (g : Graph) (h : s.Settling (fun _ => False) done) :
    Ensures s (settleFrom g fuel done.length) fun _ s' =>
      s'.Settling (fun _ => False) s'.usedJoins.toList := by
  induction fuel generalizing s done with
  | zero => exact .throw _
  | succ fuel ih =>
    refine .get ?_
    cases found : s.usedJoins[done.length]? with
    | none =>
      have all : done = s.usedJoins.toList := by
        refine h.listed.eq_of_length_le ?_
        exact Array.getElem?_eq_none_iff.1 found
      exact .pure (all ▸ h)
    | some id =>
      have next : done ++ [id] <+: s.usedJoins.toList := by
        obtain ⟨rest, parts⟩ := h.listed
        rw [← Array.getElem?_toList, ← parts, getElem?_append_right (le_refl _),
          Nat.sub_self] at found
        rw [← parts]
        cases rest with
        | nil => cases found
        | cons id' rest =>
          cases found
          exact ⟨rest, by simp⟩
      have new : id ∉ done := by
        have nodup := h.sound.nodup.sublist next.sublist
        exact fun mem => (nodup_append.1 nodup).2.2 id mem id mem_cons_self rfl
      refine (settleJoin_settling g h new next).bind fun _ s1 h1 => ?_
      have length : done.length + 1 = (done ++ [id]).length := by simp
      rw [length]
      exact ih h1

end Settling

section Destinations

variable {s : Session} {waiting : JoinId → Prop} {done : List JoinId} {id d : JoinId} {depth : Nat}

lemma destination_self (code : (s.join id).usedBy = none) : s.destination id = .ok id := by
  rw [Session.destination, Session.destinationFrom, code]
  rfl

lemma destinationFrom_last (h : s.destinationFrom depth id = .ok d) :
    (s.join d).usedBy = none ∧ (d = id ∨ ∃ k, (s.join k).usedBy = some d) := by
  induction depth generalizing id with
  | zero => cases h
  | succ depth ih =>
    rw [Session.destinationFrom] at h
    cases usedBy : (s.join id).usedBy with
    | none =>
      rw [usedBy] at h
      cases h
      exact ⟨usedBy, .inl rfl⟩
    | some user =>
      rw [usedBy] at h
      obtain ⟨last, rfl | other⟩ := ih h
      · exact ⟨last, .inr ⟨id, usedBy⟩⟩
      · exact ⟨last, .inr other⟩

lemma destinationFrom_succ (h : s.destinationFrom depth id = .ok d) :
    s.destinationFrom (depth + 1) id = .ok d := by
  induction depth generalizing id with
  | zero => cases h
  | succ depth ih =>
    rw [Session.destinationFrom] at h ⊢
    split
    · rename_i user usedBy
      rw [usedBy] at h
      exact ih h
    · rename_i usedBy
      rwa [usedBy] at h

lemma Session.Settling.destinationFrom (h : s.Settling waiting done)
    (mem : id ∈ s.usedJoins.toList.take depth) : ∃ d, s.destinationFrom depth id = .ok d := by
  induction depth generalizing id with
  | zero => cases mem
  | succ depth ih =>
    rw [destinationFrom]
    split
    · rename_i user usedBy
      obtain ⟨-, -, front, behind, parts, first, second⟩ := h.users id user usedBy
      refine ih ?_
      have nodup := h.sound.nodup
      rw [parts] at mem nodup ⊢
      have short : front.length ≤ depth := by
        by_contra long
        rw [take_append_of_le_length (by omega)] at mem
        exact (nodup_append.1 nodup).2.2 id (mem_of_mem_take mem) id second rfl
      rw [take_append, take_of_length_le short]
      exact mem_append_left _ first
    · exact ⟨id, rfl⟩

lemma lt_of_uses (pos : 0 < (s.join id).uses) : id < s.joins.size := by
  by_contra outside
  rw [Session.join, Array.getD_eq_getD_getElem?,
    Array.getElem?_eq_none (Nat.le_of_not_lt outside)] at pos
  cases pos

lemma Session.Settling.length_usedJoins (h : s.Settling waiting done) :
    s.usedJoins.toList.length ≤ s.joins.size := by
  have bounded : s.usedJoins.toList ⊆ range s.joins.size := fun id mem =>
    mem_range.2 (lt_of_uses ((h.sound.listed id).2 mem))
  have shorter := (subperm_of_subset h.sound.nodup bounded).length_le
  rwa [length_range] at shorter

lemma Session.Settling.destination (h : s.Settling waiting done) (pos : 0 < (s.join id).uses) :
    ∃ d, s.destinationFrom s.joins.size id = .ok d ∧ s.destination id = .ok d := by
  have mem : id ∈ s.usedJoins.toList.take s.joins.size := by
    rw [take_of_length_le h.length_usedJoins]
    exact (h.sound.listed id).1 pos
  obtain ⟨d, found⟩ := h.destinationFrom mem
  exact ⟨d, found, destinationFrom_succ found⟩

end Destinations

def Session.Declared (s : Session) (id : JoinId) : Prop :=
  (s.join id).replacement ≠ none ∨ (s.join id).name ≠ none ∧ id ∈ s.joinVariables.toList

structure Session.Resolved (s : Session) : Prop
    extends s.Settling (fun _ => False) s.usedJoins.toList where
  declared : ∀ id, 0 < (s.join id).uses → (s.join id).usedBy = none → s.Declared id

structure Session.Naming (s s' : Session) : Prop where
  uses : ∀ id, (s'.join id).uses = (s.join id).uses
  usedBy : ∀ id, (s'.join id).usedBy = (s.join id).usedBy
  usedJoins : s'.usedJoins = s.usedJoins
  declared : ∀ id, s.Declared id → s'.Declared id

section Naming

variable {s s' : Session} {done : List JoinId} {id : JoinId}

lemma Session.Naming.refl : s.Naming s :=
  ⟨fun _ => rfl, fun _ => rfl, rfl, fun _ h => h⟩

lemma Session.Naming.trans (h : s.Naming s') (h' : s'.Naming s'') : s.Naming s'' where
  uses id := (h'.uses id).trans (h.uses id)
  usedBy id := (h'.usedBy id).trans (h.usedBy id)
  usedJoins := h'.usedJoins.trans h.usedJoins
  declared id declared := h'.declared id (h.declared id declared)

def Session.withJoinName (s : Session) (id : JoinId) (name : String) : Session :=
  { s with
    joins := s.joins.modify id fun j => { j with name := some name }
    joinVariables := s.joinVariables.push id }

section

variable (h : s.Settling (fun _ => False) done)

include h

lemma Session.Settling.withJoinName (pos : 0 < (s.join id).uses)
    (code : (s.join id).usedBy = none) (name : String) :
    (s.withJoinName id name).Settling (fun _ => False) done ∧ s.Naming (s.withJoinName id name) ∧
      (((s.withJoinName id name).join id).usedBy = none →
        (s.withJoinName id name).Declared id) := by
  have joins (k) : (s.withJoinName id name).join k = s.join k ∨
      k = id ∧ (s.withJoinName id name).join k = { s.join k with name := some name } :=
    join_modify s id k _
  have same (k) : ((s.withJoinName id name).join k).uses = (s.join k).uses ∧
      ((s.withJoinName id name).join k).usedBy = (s.join k).usedBy ∧
      ((s.withJoinName id name).join k).replacement = (s.join k).replacement := by
    rcases joins k with kept | ⟨-, changed⟩
    · rw [kept]
      exact ⟨rfl, rfl, rfl⟩
    · rw [changed]
      exact ⟨rfl, rfl, rfl⟩
  have grown (k) : (s.join k).Grown none ((s.withJoinName id name).join k) := by
    obtain ⟨uses, usedBy, replacement⟩ := same k
    refine ⟨replacement, le_of_eq uses.symm, fun _ code => usedBy.trans code, fun u by_u => ?_⟩
    exact .inl (usedBy.symm.trans by_u)
  have sound : (s.withJoinName id name).Sound (fun _ => False) fun _ => False := by
    refine h.sound.of_grown (fun _ => .refl) grown (fun _ _ pos => pos) ⟨fun k => ?_, h.sound.nodup⟩
    rw [(same k).1]
    exact h.sound.listed k
  refine ⟨h.of_grown (fun _ => .refl) grown nofun sound rfl prefix_rfl fun k mem => ?_,
    ⟨fun k => (same k).1, fun k => (same k).2.1, rfl, fun k declared => ?_⟩, fun _ => .inr ⟨?_, ?_⟩⟩
  · rw [Session.withJoinName, Array.toList_push] at mem
    refine (mem_append.1 mem).imp_right fun new => ?_
    rw [mem_singleton.1 new, (same id).1, (same id).2.1]
    exact ⟨pos, code⟩
  · refine declared.imp (fun replaced => ?_) fun ⟨hasName, listed⟩ => ⟨?_, ?_⟩
    · rwa [(same k).2.2]
    · rcases joins k with kept | ⟨-, changed⟩
      · rwa [kept]
      · rw [changed]
        exact nofun
    · rw [Session.withJoinName, Array.toList_push]
      exact mem_append_left _ listed
  · have self : (s.withJoinName id name).join id = { s.join id with name := some name } :=
      join_modify_self (lt_of_uses pos)
    rw [self]
    exact nofun
  · rw [Session.withJoinName, Array.toList_push]
    exact mem_append_right _ mem_cons_self

lemma nameJoin_settling (pos : 0 < (s.join id).uses)
    (counts : Table Register Nat) : Ensures s (nameJoin counts id) fun _ s' =>
      s'.Settling (fun _ => False) done ∧ s.Naming s' ∧
        ((s'.join id).usedBy = none → s'.Declared id) := by
  refine .get (.ite (fun replaced => .pure ⟨h, .refl, fun _ => .inl ?_⟩) fun _ => ?_)
  · exact Option.isSome_iff_ne_none.1 replaced
  refine .bind_lift fun d found => ?_
  refine .ite (fun other => .pure ⟨h, .refl, fun code => ?_⟩) fun same => ?_
  · rw [destination_self code] at found
    cases found
    exact absurd rfl (bne_iff_ne.1 other)
  have same : d = id := by simpa using same
  subst same
  refine .bind (P := fun _ s' => ∃ name, s' = { s with
    joins := s.joins.modify d fun j => { j with name := some name } }) (.modify ⟨_, rfl⟩) ?_
  rintro _ _ ⟨name, rfl⟩
  refine .bind_modify ?_
  exact .pure (h.withJoinName pos (destinationFrom_last found).1 name)

lemma nameJoins_settling {l : List JoinId} (pos : ∀ id ∈ l, 0 < (s.join id).uses)
    (counts : Table Register Nat) :
    Ensures s (l.foldlM nameJoin counts) fun _ s' =>
      s'.Settling (fun _ => False) done ∧ s.Naming s' ∧
      ∀ id ∈ l, (s'.join id).usedBy = none → s'.Declared id := by
  induction l generalizing s counts with
  | nil => exact .pure ⟨h, .refl, nofun⟩
  | cons id l ih =>
    obtain ⟨here, others⟩ := forall_mem_cons.1 pos
    refine (nameJoin_settling h here counts).bind fun counts s1 ⟨h1, first, declared⟩ => ?_
    have others1 : ∀ id ∈ l, 0 < (s1.join id).uses := fun id mem => first.uses id ▸ others id mem
    refine (ih h1 others1 counts).imp fun _ s2 ⟨h2, second, all⟩ => ?_
    refine ⟨h2, first.trans second, forall_mem_cons.2 ⟨fun code => ?_, all⟩⟩
    exact second.declared id (declared ((second.usedBy id).symm.trans code))

end

/-- In the end, every join in use has a value or a variable. -/
lemma settleJoins_resolved (g : Graph) (h : s.Settling (fun _ => False) []) :
    Ensures s (settleJoins g) fun _ s' => s'.Resolved := by
  refine .get ((settleFrom_settling g h).bind fun _ s1 h1 => .get ?_)
  have pos : ∀ id ∈ s1.usedJoins.toList, 0 < (s1.join id).uses := fun id => (h1.sound.listed id).2
  refine (nameJoins_settling h1 pos _).bind fun _ s2 ⟨h2, names, declared⟩ => .pure ?_
  refine ⟨names.usedJoins ▸ h2, fun id used code => declared id ?_ code⟩
  rw [← names.usedJoins]
  exact (h2.sound.listed id).1 used

end Naming

end Decompiler.Eval
