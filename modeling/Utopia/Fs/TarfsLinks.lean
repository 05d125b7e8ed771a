/-
`tarfs_walk` and `tarfs_follow` of `fs/tarfs.c` with their calls of each other on a
stack, and what becomes of symlinks that lead back to themselves.
-/
import Utopia.Fs.TarfsSafe
import Utopia.Lib.CallStack

namespace Utopia

namespace Tarfs

/-- A call of `tarfs_walk`: whether it is in its loop up to the root, the pointer `cur`,
the components that it still has to walk, and `depth`. -/
structure WalkCall where
  climbing : Bool
  cur : Option NodePtr
  todo : List (List Byte)
  depth : ℕ

def walkCall (start : Option NodePtr) (path : List Byte) (depth : ℕ) : WalkCall where
  climbing := path.head? = some slash
  cur := start
  todo := components slash path
  depth := depth

section Machine

variable (s : Tarfs) (refuses : ℕ → Bool)

/-- `tarfs_follow`: a result, or the walk whose result it returns.  `refuses` is its test
of the depth. -/
def followMove (n : Option NodePtr) (depth : ℕ) : WalkCall ⊕ Option NodePtr :=
  match n with
  | none => .inr none
  | some n =>
      if (s.node n).isSymlink then
        if refuses depth then .inr none
        else .inl (walkCall (s.node n).parent (s.node n).linkTarget (depth + 1))
      else .inr (some n)

/-- What a call of `tarfs_walk` does next; it is stuck where it uses a null pointer. -/
def walkMove (call : WalkCall) : Move WalkCall (Option NodePtr) :=
  match call.climbing, call.todo, call.cur with
  | true, _, none => .stuck
  | true, _, some n =>
      match (s.node n).parent with
      | some p => .goOn { call with cur := some p }
      | none => .goOn { call with climbing := false }
  | false, [], cur => .leave cur
  | false, _ :: _, none => .stuck
  | false, comp :: todo, some n =>
      if (s.node n).type ≠ .dir then .leave none
      else if comp = [dot] then .goOn { call with todo := todo }
      else if comp = [dot, dot] then
        .goOn { call with todo := todo, cur := some ((s.node n).parent.getD n) }
      else
        match s.followMove refuses (s.findChild n comp) call.depth with
        | .inl callee => .enter callee { call with todo := todo }
        | .inr none => .leave none
        | .inr (some r) => .goOn { call with todo := todo, cur := some r }

/-- The two functions as a machine: a walk goes on from what `tarfs_follow` returns, and
returns `NULL` if that is `NULL`. -/
def linkMachine : CallMachine WalkCall (Option NodePtr) where
  next := s.walkMove refuses
  resume caller result :=
    match result with
    | none => .inr none
    | some r => .inl { caller with cur := some r }

/-- The state behind a call of `tarfs_follow`. -/
def followState (n : Option NodePtr) (depth : ℕ) : MachineState WalkCall (Option NodePtr) :=
  match s.followMove refuses n depth with
  | .inl call => .running call []
  | .inr result => .returned result []

end Machine

/-- The test of `tarfs_follow`. -/
def atLimit (depth : ℕ) : Bool := maxSymlinkDepth ≤ depth

/-- A resolver that follows every symlink. -/
def noLimit (_ : ℕ) : Bool := false

variable {s : Tarfs} {n : NodePtr} {refuses : ℕ → Bool} {bound depth : ℕ}

theorem next_linkMachine : (s.linkMachine refuses).next = s.walkMove refuses := rfl

/-- A component of the path. -/
theorem walkMove_cons (n : NodePtr) (comp : List Byte) (todo : List (List Byte)) :
    s.walkMove refuses ⟨false, some n, comp :: todo, depth⟩ =
      if (s.node n).type ≠ .dir then .leave none
      else if comp = [dot] then .goOn ⟨false, some n, todo, depth⟩
      else if comp = [dot, dot] then .goOn ⟨false, some ((s.node n).parent.getD n), todo, depth⟩
      else
        match s.followMove refuses (s.findChild n comp) depth with
        | .inl callee => .enter callee ⟨false, some n, todo, depth⟩
        | .inr none => .leave none
        | .inr (some r) => .goOn ⟨false, some r, todo, depth⟩ :=
  rfl

theorem walkMove_top (refuses : ℕ → Bool) {todo : List (List Byte)} (h : (s.node n).parent = none) :
    s.walkMove refuses ⟨true, some n, todo, depth⟩ = .goOn ⟨false, some n, todo, depth⟩ := by
  simp only [walkMove, h]

theorem walkMove_climb (refuses : ℕ → Bool) {todo : List (List Byte)} {p : NodePtr} (h : (s.node n).parent = some p) :
    s.walkMove refuses ⟨true, some n, todo, depth⟩ = .goOn ⟨true, some p, todo, depth⟩ := by
  simp only [walkMove, h]

/-- The loop up to the root. -/
theorem climb_returns {todo : List (List Byte)} {fuel : ℕ} {r : NodePtr}
    {result : Option NodePtr}
    (htop : s.top fuel n = some r)
    (hrest : (s.linkMachine refuses).Returns (bound + 1) ⟨false, some r, todo, depth⟩ result) :
    (s.linkMachine refuses).Returns (bound + 1) ⟨true, some n, todo, depth⟩ result := by
  induction fuel generalizing n with
  | zero =>
      cases hparent : (s.node n).parent with
      | none =>
          rw [top_of_none hparent] at htop
          cases htop
          exact .goOn (walkMove_top refuses hparent) hrest
      | some p => simp [top, hparent] at htop
  | succ fuel ih =>
      cases hparent : (s.node n).parent with
      | none =>
          rw [top_of_none hparent] at htop
          cases htop
          exact .goOn (walkMove_top refuses hparent) hrest
      | some p =>
          rw [top_of_some hparent] at htop
          exact .goOn (walkMove_climb refuses hparent) (ih htop)

/-- A call of `tarfs_follow` comes to `follow`, with at most `bound` nested walks. -/
def FollowReturns (s : Tarfs) (refuses : ℕ → Bool) (bound depth : ℕ)
    (follow : NodePtr → Option NodePtr) : Prop :=
  ∀ n, match s.followMove refuses (some n) depth with
    | .inl callee => (s.linkMachine refuses).Returns bound callee (follow n)
    | .inr result => result = follow n

/-- The loop over the components. -/
theorem todo_returns {follow : NodePtr → Option NodePtr}
    (hfollow : s.FollowReturns refuses bound depth follow) (todo : List (List Byte))
    (n : NodePtr) :
    (s.linkMachine refuses).Returns (bound + 1) ⟨false, some n, todo, depth⟩
      (todo.foldlM (s.walkStep follow) n) := by
  induction todo generalizing n with
  | nil => exact .leave rfl
  | cons comp todo ih =>
      have hmove : (s.linkMachine refuses).next ⟨false, some n, comp :: todo, depth⟩ = _ :=
        walkMove_cons n comp todo
      rw [List.foldlM_cons, walkStep]
      split_ifs at hmove ⊢ with htype hdot hdots
      · exact .leave hmove
      · exact .goOn hmove (ih n)
      · exact .goOn hmove (ih _)
      cases hfind : s.findChild n comp with
      | none =>
          rw [hfind] at hmove
          exact .leave hmove
      | some child =>
          have hchild := hfollow child
          rw [hfind] at hmove
          change (s.linkMachine refuses).Returns (bound + 1) _
            ((follow child).bind fun r => todo.foldlM (s.walkStep follow) r)
          cases hcall : s.followMove refuses (some child) depth with
          | inl callee =>
              simp only [hcall] at hmove hchild
              cases hfound : follow child with
              | none =>
                  rw [hfound] at hchild
                  exact .abort hmove hchild rfl
              | some r =>
                  rw [hfound] at hchild
                  exact .enter hmove hchild rfl (ih r)
          | inr found =>
              simp only [hcall] at hmove hchild
              subst hchild
              cases hfound : follow child with
              | none =>
                  simp only [hfound] at hmove
                  exact .leave hmove
              | some r =>
                  simp only [hfound] at hmove
                  exact .goOn hmove (ih r)

/-- A walk returns what its loops find. -/
theorem walk_returns {follow : NodePtr → Option NodePtr} (hs : s.Climbs)
    (hfollow : s.FollowReturns refuses bound depth follow) (start : NodePtr) (path : List Byte) :
    (s.linkMachine refuses).Returns (bound + 1) (walkCall (some start) path depth)
      (s.walkWith follow start path) := by
  obtain ⟨r, htop⟩ := hs.top start
  rw [walkCall, walkWith, htop]
  split_ifs with habs
  · rw [decide_eq_true habs, Option.bind_some, foldComponents_eq]
    exact climb_returns htop (todo_returns hfollow _ r)
  · rw [decide_eq_false habs, Option.bind_some, foldComponents_eq]
    exact todo_returns hfollow _ start

/-- Behind each symlink one walk less can be nested. -/
theorem follow_returns (hs : s.Climbs) {left depth : ℕ} (hleft : left = maxSymlinkDepth - depth) :
    s.FollowReturns atLimit left depth (s.follow left) := by
  induction left generalizing depth with
  | zero =>
      intro n
      have hlimit : atLimit depth = true := decide_eq_true (by omega)
      rw [followMove, follow, hlimit]
      by_cases hlink : (s.node n).isSymlink = true
      · rw [if_pos hlink, if_pos hlink, if_pos rfl]
      · rw [if_neg hlink, if_neg hlink]
  | succ left ih =>
      intro n
      have hlimit : atLimit depth = false := decide_eq_false (by omega)
      rw [followMove, follow, hlimit]
      by_cases hlink : (s.node n).isSymlink = true
      · obtain ⟨p, hp⟩ := hs.linked n hlink
        rw [if_pos hlink, if_pos hlink, hp]
        exact walk_returns hs (ih (by omega)) p _
      · rw [if_neg hlink, if_neg hlink]

/-- The calls of the two functions and of `tarfs_lookup`. -/
inductive Resolution where
  | walk (start : NodePtr) (path : List Byte) (depth : ℕ)
  | follow (n : Option NodePtr) (depth : ℕ)
  | lookup (parent : NodePtr) (name : List Byte)

/-- The state of the machine when such a call begins. -/
def Resolution.begin (s : Tarfs) (refuses : ℕ → Bool) :
    Resolution → MachineState WalkCall (Option NodePtr)
  | walk start path depth => .running (walkCall (some start) path depth) []
  | follow n depth => s.followState refuses n depth
  | lookup parent name =>
      if (s.node parent).type ≠ .dir then .returned none []
      else s.followState refuses (s.findChild parent name) 0

/-- What the call returns; `NULL` is `none`. -/
def Resolution.result (s : Tarfs) : Resolution → Option NodePtr
  | walk start path depth => s.walkWith (s.follow (maxSymlinkDepth - depth)) start path
  | follow n depth => n.bind (s.follow (maxSymlinkDepth - depth))
  | lookup parent name => s.lookup parent name

/-- A walk is about to follow `link`. -/
def WalkCall.Visits (s : Tarfs) (call : WalkCall) (link : NodePtr) : Prop :=
  (s.node link).isSymlink = true ∧ call.climbing = false ∧
    ∃ comp todo cur, call.todo = comp :: todo ∧ call.cur = some cur ∧
      (s.node cur).type = .dir ∧ comp ≠ [dot] ∧ comp ≠ [dot, dot] ∧
      s.findChild cur comp = some link

/-- Without a limit, the resolution would visit the symlink for ever. -/
def Revisits (s : Tarfs) (r : Resolution) (link : NodePtr) : Prop :=
  ∀ k, ∃ j ≥ k, ∃ call callers,
    (s.linkMachine noLimit).run j (r.begin s noLimit) = .running call callers ∧
      call.Visits s link

/-- The limit makes a difference only where it refuses. -/
theorem followMove_limits (s : Tarfs) (n : Option NodePtr) (depth : ℕ) :
    s.followMove atLimit n depth = .inr none ∨
      s.followMove atLimit n depth = s.followMove noLimit n depth := by
  cases n with
  | none => exact .inl rfl
  | some n =>
      rw [followMove, followMove]
      by_cases hlink : (s.node n).isSymlink = true
      · rw [if_pos hlink, if_pos hlink]
        by_cases hlimit : atLimit depth = true
        · rw [if_pos hlimit]
          exact .inl rfl
        · rw [if_neg hlimit]
          exact .inr rfl
      · rw [if_neg hlink, if_neg hlink]
        exact .inr rfl

theorem refuses_linkMachine (s : Tarfs) :
    Refuses (s.linkMachine noLimit) (s.linkMachine atLimit) := by
  refine ⟨fun call hcall => ?_, rfl, fun call => rfl⟩
  obtain ⟨climbing, cur, todo, depth⟩ := call
  cases climbing with
  | true =>
      cases cur with
      | none => rfl
      | some n => rfl
  | false =>
      cases todo with
      | nil => rfl
      | cons comp todo =>
          cases cur with
          | none => rfl
          | some n =>
              have hatLimit : (s.linkMachine atLimit).next ⟨false, some n, comp :: todo, depth⟩ = _ :=
                walkMove_cons n comp todo
              have hnoLimit : (s.linkMachine noLimit).next ⟨false, some n, comp :: todo, depth⟩ = _ :=
                walkMove_cons n comp todo
              rw [hatLimit] at hcall
              rw [hatLimit, hnoLimit]
              split_ifs at hcall ⊢
              · rfl
              · rfl
              · rfl
              rcases followMove_limits s (s.findChild n comp) depth with hnone | hsame
              · rw [hnone] at hcall
                exact absurd rfl hcall
              · rw [hsame]

/-- How the calls of `tarfs_follow` begin and end. -/
theorem follow_ends (hs : s.Climbs) (n : Option NodePtr) (depth : ℕ) :
    (s.linkMachine atLimit).Ends (maxSymlinkDepth + 1) (s.followState atLimit n depth)
        (n.bind (s.follow (maxSymlinkDepth - depth))) ∧
      ((s.linkMachine noLimit).Endless (s.followState noLimit n depth) →
        n.bind (s.follow (maxSymlinkDepth - depth)) = none) := by
  cases n with
  | none =>
      exact ⟨CallMachine.ends_returned _ none, fun _ => rfl⟩
  | some n =>
      have hfollow := @follow_returns s hs (maxSymlinkDepth - depth) depth rfl n
      rw [Option.bind_some, followState, followState]
      cases hmove : s.followMove atLimit (some n) depth with
      | inl call =>
          have hreturns : (s.linkMachine atLimit).Returns (maxSymlinkDepth - depth) call
              (s.follow (maxSymlinkDepth - depth) n) := by
            rwa [hmove] at hfollow
          rcases followMove_limits s (some n) depth with hnone | hsame
          · rw [hmove] at hnone
            cases hnone
          · rw [← hsame, hmove]
            exact ⟨hreturns.ends.mono (by omega), (refuses_linkMachine s).eq_none hreturns⟩
      | inr found =>
          have hfound : found = s.follow (maxSymlinkDepth - depth) n := by
            rwa [hmove] at hfollow
          subst hfound
          refine ⟨CallMachine.ends_returned _ _, fun hendless => ?_⟩
          rcases followMove_limits s (some n) depth with hnone | hsame
          · rw [hmove] at hnone
            exact Sum.inr.inj hnone
          · rw [← hsame, hmove] at hendless
            exact absurd hendless (CallMachine.not_endless_returned _)

theorem walk_ends (hs : s.Climbs) (start : NodePtr) (path : List Byte) (depth : ℕ) :
    (s.linkMachine atLimit).Ends (maxSymlinkDepth + 1)
        (.running (walkCall (some start) path depth) [])
        (s.walkWith (s.follow (maxSymlinkDepth - depth)) start path) ∧
      ((s.linkMachine noLimit).Endless (.running (walkCall (some start) path depth) []) →
        s.walkWith (s.follow (maxSymlinkDepth - depth)) start path = none) := by
  have hreturns : (s.linkMachine atLimit).Returns (maxSymlinkDepth - depth + 1)
      (walkCall (some start) path depth)
      (s.walkWith (s.follow (maxSymlinkDepth - depth)) start path) :=
    walk_returns hs (follow_returns hs rfl) start path
  exact ⟨hreturns.ends.mono (by omega), (refuses_linkMachine s).eq_none hreturns⟩

/-- The trees that `tarfs_mount` builds from an archive, also while it builds them. -/
def Grown (granted : ℕ → Bool) (image : List Byte) (s : Tarfs) : Prop :=
  ∃ n s₀, (empty granted).createNode [] .dir = .ok (n, s₀) ∧ AddsNodes image s₀ s

variable {granted : ℕ → Bool} {image : List Byte}

/-- A node is linked to its parent as it is made, and before it is found. -/
theorem Grown.climbs (h : s.Grown granted image) : s.Climbs := by
  obtain ⟨n, s₀, hroot, hadds⟩ := h
  exact ((initial_ready hroot).adds hadds).climbs

theorem Parsing.grown {offset : Word} (h : Parsing granted image offset s) :
    s.Grown granted image := by
  induction h with
  | start made => exact ⟨_, _, made, .refl⟩
  | next before round ih =>
      obtain ⟨n, s₀, hroot, hadds⟩ := ih
      exact ⟨n, s₀, hroot, hadds.trans (parseStep_adds before.wellFormed round)⟩

theorem mount_grown (hmount : mount granted image = some (.ok s)) : s.Grown granted image := by
  obtain ⟨n, s₀, made⟩ := exists_start hmount
  exact ⟨n, s₀, made, (Parsing.start made).adds hmount⟩

/-- For every tree and every call of `tarfs_walk`, `tarfs_follow` or `tarfs_lookup`: the
call ends, with at most one walk more than the limit nested at any moment and no null
pointer used, and it returns `NULL` if without the limit it would visit a symlink for
ever. -/
theorem resolution_ends (hs : s.Grown granted image) (r : Resolution) :
    (s.linkMachine atLimit).Ends (maxSymlinkDepth + 1) (r.begin s atLimit) (r.result s) ∧
      ∀ link, s.Revisits r link → r.result s = none := by
  have hends : (s.linkMachine atLimit).Ends (maxSymlinkDepth + 1) (r.begin s atLimit)
        (r.result s) ∧
      ((s.linkMachine noLimit).Endless (r.begin s noLimit) → r.result s = none) := by
    cases r with
    | walk start path depth => exact walk_ends hs.climbs start path depth
    | follow n depth => exact follow_ends hs.climbs n depth
    | lookup parent name =>
        rw [Resolution.begin, Resolution.begin, Resolution.result, lookup]
        split_ifs with htype
        · exact ⟨CallMachine.ends_returned _ none, fun _ => rfl⟩
        · exact follow_ends hs.climbs _ 0
  exact ⟨hends.1, fun link hlink => hends.2 (CallMachine.endless_of_recurs hlink)⟩

/-- The archive of one symlink, to itself. -/
def loopArchive : List Byte := plainHeader [0x61] 0x32 [0x61]

def loopTree : Tarfs := rootOnly.parseEntry loopArchive 512 0

theorem loopTree_grown : loopTree.Grown (fun _ => true) loopArchive := by
  have hhdr : headerAt loopArchive 0 = some (loopArchive, 512, 0) := by decide +kernel
  have hnext : (rootOnly.parseStep loopArchive 0).map Prod.fst = some 512 := by decide +kernel
  exact ((parsing_rootOnly loopArchive).entry hhdr hnext).grown

theorem loopTree_root : (loopTree.node root).type = .dir := by decide +kernel

theorem loopTree_find : loopTree.findChild root [0x61] = some 1 := by decide +kernel

theorem loopTree_link : (loopTree.node 1).isSymlink = true := by decide +kernel

/-- To follow the symlink is to look it up again. -/
theorem loopTree_follow (depth : ℕ) : loopTree.followMove noLimit (some 1) depth =
    .inl ⟨false, some root, [[0x61]], depth + 1⟩ := by
  have hparent : (loopTree.node 1).parent = some root := by decide +kernel
  have htarget : (loopTree.node 1).linkTarget = [0x61] := by decide +kernel
  rw [followMove, if_pos loopTree_link, hparent, htarget]
  rfl

/-- Without the limit the walks to the symlink nest for ever. -/
theorem loopTree_run (k : ℕ) : ∃ callers, (loopTree.linkMachine noLimit).run k
    ((Resolution.lookup root [0x61]).begin loopTree noLimit) =
      .running ⟨false, some root, [[0x61]], k + 1⟩ callers := by
  induction k with
  | zero =>
      refine ⟨[], ?_⟩
      rw [CallMachine.run_zero, Resolution.begin, if_neg (not_not.mpr loopTree_root), loopTree_find,
        followState, loopTree_follow]
  | succ k ih =>
      obtain ⟨callers, hrun⟩ := ih
      have hmove : (loopTree.linkMachine noLimit).next ⟨false, some root, [[0x61]], k + 1⟩ =
          .enter ⟨false, some root, [[0x61]], k + 1 + 1⟩ ⟨false, some root, [], k + 1⟩ := by
        rw [next_linkMachine, walkMove_cons, if_neg (not_not.mpr loopTree_root),
          if_neg (by decide), if_neg (by decide), loopTree_find, loopTree_follow]
      rw [CallMachine.run_succ', hrun]
      exact ⟨_, CallMachine.step_enter hmove⟩

theorem loopTree_revisits : loopTree.Revisits (.lookup root [0x61]) 1 := by
  intro k
  obtain ⟨callers, hrun⟩ := loopTree_run k
  exact ⟨k, le_rfl, _, callers, hrun, loopTree_link, rfl, _, _, _, rfl, rfl, loopTree_root,
    by decide, by decide, loopTree_find⟩

/-- The lookup of the symlink. -/
theorem resolution_ends_loop :
    (loopTree.linkMachine atLimit).Ends (maxSymlinkDepth + 1)
        ((Resolution.lookup root [0x61]).begin loopTree atLimit) none ∧
      loopTree.lookup root [0x61] = none := by
  obtain ⟨hends, hloops⟩ := resolution_ends loopTree_grown (.lookup root [0x61])
  have hnone : (Resolution.lookup root [0x61]).result loopTree = none :=
    hloops 1 loopTree_revisits
  rw [hnone] at hends
  exact ⟨hends, hnone⟩

end Tarfs

end Utopia
