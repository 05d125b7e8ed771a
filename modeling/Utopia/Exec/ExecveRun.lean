/-
`execve` frees each of its blocks once, but for the vector of an `argv` without strings.
-/
import Utopia.Exec.CloneUndo
import Utopia.Exec.Execve

namespace Utopia

/-- The pointer at an index of a vector of the user. -/
def UserStrings.entry (user : UserStrings) (userVec : Word) (i : ℕ) : Option Word :=
  user.pointer (userVec + 8 * BitVec.ofNat 64 i)

/-- The vector has `n` strings. -/
def UserStrings.Counts (user : UserStrings) (userVec : Word) (n : ℕ) : Prop :=
  (∀ i < n, ∃ p, p ≠ 0 ∧ user.entry userVec i = some p) ∧ user.entry userVec n = some 0

/-- These are the strings from an index on, each below the limit of the user half. -/
def UserStrings.Reads (user : UserStrings) (userVec : Word) : (i : ℕ) → List (List Byte) → Prop
  | _, [] => True
  | i, text :: texts =>
      (∃ p, user.entry userVec i = some p ∧ p < userVaLimit ∧ user.text p = some text) ∧
        user.Reads userVec (i + 1) texts

/-- What the copies of the strings take of the budget. -/
def textBytes (texts : List (List Byte)) : ℕ := (texts.map fun text => text.length + 1).sum

/-- The vector is null, or it is copied: it keeps within the limits, and the requests from
the `first` on are granted. -/
def UserStrings.Copied (user : UserStrings) (granted : ℕ → Bool) (first : ℕ) (userVec : Word)
    (budget : ℕ) : Prop :=
  userVec = 0 ∨ userVec < userVaLimit ∧ ∃ texts, user.Reads userVec 0 texts ∧
    user.Counts userVec texts.length ∧ texts.length ≤ execMaxArgs ∧ textBytes texts ≤ budget ∧
    ∀ i ≤ texts.length, granted (first + i) = true

/-- The path is copied, then an `argv` that is not null and has no strings, and then `envp`. -/
structure LosesArgv (user : UserStrings) (granted : ℕ → Bool) (regs : SyscallRegs)
    (caller : Option ExecCaller) : Prop where
  caller : caller.isSome = true
  path : regs.arg1 ≠ 0 ∧ regs.arg1 < userVaLimit ∧
    ∃ text, user.text regs.arg1 = some text ∧ text.length + 1 ≤ execMaxPath
  pathBlock : granted 0 = true
  argv : regs.arg2 ≠ 0 ∧ regs.arg2 < userVaLimit ∧ user.entry regs.arg2 0 = some 0
  argvBlock : granted 1 = true
  envp : user.Copied granted 2 regs.arg3 execMaxArgBytes

section Copies

variable {σ : Type} {user : UserStrings} {granted : ℕ → Bool} {first : ℕ} {held : List ℕ}
  {Rest : ExecWorld σ → Prop} {caller : Option ExecCaller}

/-- The requests so far. -/
def Asked (granted : ℕ → Bool) (n : ℕ) (s : Ledger × ExecWorld σ) : Prop :=
  s.1.granted = granted ∧ s.1.requests = n

theorem request_asked : Ensures (Asked granted first) (request (σ := ExecWorld σ)) fun b s =>
    b = (if granted first then some first else none) ∧ Asked granted (first + 1) s := by
  rintro ⟨l, w⟩ ⟨rfl, rfl⟩ b s' hrun
  cases hrun
  exact ⟨rfl, rfl, rfl⟩

/-- Reads of the user change nothing. -/
theorem readUser_ensures {α : Type} {Pre : Ledger × ExecWorld σ → Prop} (value : Option α) :
    Ensures Pre (readUser value) fun a s => value = some a ∧ Pre s := by
  rintro ⟨l, w⟩ hpre a s' hrun
  cases value with
  | none => cases hrun
  | some a₁ =>
      cases hrun
      exact ⟨rfl, hpre⟩

theorem callKernel_ensures {α : Type} (call : σ → Option (α × σ)) :
    Ensures (Books held fun w => w.caller = caller) (callKernel call) fun _ =>
      Books held fun w => w.caller = caller := by
  refine unrecorded_ensures fun w a w' hcaller hstep => ?_
  obtain ⟨⟨a₁, files⟩, -, hresult⟩ := Option.map_eq_some_iff.mp hstep
  cases hresult
  exact hcaller

theorem filterMap_block_cons (s : HeapString) (strings : List HeapString) :
    (s :: strings).filterMap HeapString.block =
      s.block.toList ++ strings.filterMap HeapString.block := by
  cases hblock : s.block <;> simp [hblock]

theorem releaseStrings_ensures (strings : List HeapString) :
    Ensures (Books (strings.filterMap HeapString.block ++ held) Rest)
      (strings.forM fun s => release s.block) fun _ => Books held Rest := by
  induction strings with
  | nil => exact Ensures.pure fun s hs => hs
  | cons s strings ih =>
      rw [filterMap_block_cons, List.append_assoc]
      exact release_ensures.bind fun _ => ih

theorem execFreeStrvec_ensures (vec : Option StringVec) :
    Ensures (Books (vecBlocks vec ++ held) Rest) (execFreeStrvec vec) fun _ =>
      Books held Rest := by
  cases vec with
  | none => exact Ensures.pure fun s hs => hs
  | some vec =>
      have hblocks : vecBlocks (some vec) ++ held =
          vec.strings.filterMap HeapString.block ++ ((some vec.block).toList ++ held) := by
        simp [vecBlocks, StringVec.blocks]
      rw [hblocks]
      exact (releaseStrings_ensures vec.strings).bind fun _ => release_ensures

theorem countStrings_ensures {Pre : Ledger × ExecWorld σ → Prop} {userVec : Word}
    {left count : ℕ} (hbefore : ∀ i < count, ∃ p, p ≠ 0 ∧ user.entry userVec i = some p) :
    Ensures Pre (countStrings user userVec left count) fun r s =>
      (∀ n, r = some n → user.Counts userVec n ∧ n ≤ count + left) ∧
        (r = none → ∀ n ≤ count + left, ¬ user.Counts userVec n) ∧ Pre s := by
  induction left generalizing count with
  | zero =>
      rw [countStrings]
      refine (readUser_ensures _).bind fun p => Ensures.pull fun hp => ?_
      refine Ensures.ite (fun hzero => Ensures.pure fun s hs => ⟨?_, by simp, hs⟩) fun hne =>
        Ensures.pure fun s hs => ⟨by simp, fun _ n hn hcounts => ?_, hs⟩
      · rintro n ⟨⟩
        subst hzero
        exact ⟨⟨hbefore, hp⟩, le_rfl⟩
      · rcases (Nat.le_iff_lt_or_eq.mp hn : n < count ∨ n = count) with hlt | rfl
        · obtain ⟨q, hq, hentry⟩ := hbefore n hlt
          exact hq (Option.some.inj (hentry.symm.trans hcounts.2))
        · exact hne (Option.some.inj (hp.symm.trans hcounts.2))
  | succ left ih =>
      rw [countStrings]
      refine (readUser_ensures _).bind fun p => Ensures.pull fun hp => ?_
      refine Ensures.ite (fun hzero => Ensures.pure fun s hs => ⟨?_, by simp, hs⟩) fun hne => ?_
      · rintro n ⟨⟩
        subst hzero
        exact ⟨⟨hbefore, hp⟩, Nat.le_add_right _ _⟩
      · have hsofar : ∀ i < count + 1, ∃ q, q ≠ 0 ∧ user.entry userVec i = some q := by
          intro i hi
          rcases Nat.lt_succ_iff_lt_or_eq.mp hi with hlt | rfl
          · exact hbefore i hlt
          · exact ⟨p, hne, hp⟩
        have hrest := ih hsofar
        rw [Nat.add_right_comm] at hrest
        exact hrest

/-! ### The vectors -/

theorem efault_ne_zero : efault ≠ 0 := by decide

theorem e2big_ne_zero : e2big ≠ 0 := by decide

theorem enomem_ne_zero : enomem ≠ 0 := by decide

theorem copyStrings_ensures {userVec : Word} {vec left budget : ℕ} {strings : List HeapString} :
    Ensures (Books (StringVec.blocks ⟨vec, strings⟩ ++ held) Rest)
      (copyStrings user userVec vec left strings budget) fun r =>
        Books (vecBlocks r.vec ++ held) Rest := by
  induction left generalizing strings budget with
  | zero => exact Ensures.pure fun s hs => hs
  | succ left ih =>
      have hfree : ∀ err budget', Ensures (Books (StringVec.blocks ⟨vec, strings⟩ ++ held) Rest)
          (do execFreeStrvec (some ⟨vec, strings⟩); return ⟨err, none, budget'⟩)
          fun r : CopiedVec => Books (vecBlocks r.vec ++ held) Rest := fun err budget' =>
        (execFreeStrvec_ensures (some ⟨vec, strings⟩)).bind fun _ => Ensures.pure fun s hs => hs
      rw [copyStrings]
      refine (readUser_ensures _).bind fun src => Ensures.pull fun _ => ?_
      refine Ensures.ite (fun _ => hfree _ _) fun _ => ?_
      refine (readUser_ensures _).bind fun text => Ensures.pull fun _ => ?_
      refine Ensures.ite (fun _ => hfree _ _) fun _ => ?_
      refine request_ensures.bind fun b => ?_
      cases b with
      | none => exact hfree _ _
      | some block =>
          refine ih.mono (fun s hs => hs.perm ?_) fun _ _ hs => hs
          have hblocks : StringVec.blocks ⟨vec, strings ++ [⟨some block, text⟩]⟩ =
              strings.filterMap HeapString.block ++ block :: [vec] := by
            simp [StringVec.blocks]
          rw [hblocks, StringVec.blocks]
          exact (List.perm_middle.append_right held)

theorem execCopyStrvec_ensures (userVec : Word) (budget : ℕ) :
    Ensures (Books held Rest) (execCopyStrvec user userVec budget) fun r =>
      Books (vecBlocks r.vec ++ held) Rest := by
  rw [execCopyStrvec]
  refine Ensures.ite (fun _ => Ensures.pure fun s hs => hs) fun _ => ?_
  refine Ensures.ite (fun _ => Ensures.pure fun s hs => hs) fun _ => ?_
  refine (countStrings_ensures fun i hi => absurd hi (Nat.not_lt_zero i)).bind fun count => ?_
  cases count with
  | none => exact Ensures.pure fun s hs => hs.2.2
  | some count =>
      refine (request_ensures.mono (fun s hs => hs.2.2) fun _ _ hs => hs).bind fun b => ?_
      cases b with
      | none => exact Ensures.pure fun s hs => hs
      | some vec =>
          have hcopy := @copyStrings_ensures σ user held Rest userVec vec count budget []
          exact hcopy

/-- When the rest of the strings is copied. -/
theorem copyStrings_asked {userVec : Word} {vec left budget : ℕ} {strings : List HeapString} :
    Ensures (Asked granted first) (copyStrings (σ := σ) user userVec vec left strings budget)
      fun r s =>
        (r.err = 0 → Asked granted (first + left) s ∧ ∃ new,
          r.vec = some ⟨vec, strings ++ new⟩ ∧ new.length = left ∧
          user.Reads userVec strings.length (new.map HeapString.text) ∧
          r.budget + textBytes (new.map HeapString.text) = budget ∧
          ∀ i < left, granted (first + i) = true) ∧
        ((∃ texts, texts.length = left ∧ user.Reads userVec strings.length texts ∧
          textBytes texts ≤ budget ∧ ∀ i < left, granted (first + i) = true) → r.err = 0) := by
  induction left generalizing strings budget first with
  | zero =>
      refine Ensures.pure fun s hs => ⟨fun _ => ⟨hs, [], by simp, rfl, trivial, rfl, ?_⟩,
        fun _ => rfl⟩
      exact fun i hi => absurd hi (Nat.not_lt_zero i)
  | succ left ih =>
      rw [copyStrings]
      refine (readUser_ensures _).bind fun src => Ensures.pull fun hsrc => ?_
      have hread : ∀ texts, texts.length = left + 1 → user.Reads userVec strings.length texts →
          ∃ text rest, texts = text :: rest ∧ rest.length = left ∧ src < userVaLimit ∧
            user.text src = some text ∧ user.Reads userVec (strings.length + 1) rest := by
        intro texts hlen hreads
        obtain ⟨text, rest, rfl⟩ := List.exists_cons_of_length_eq_add_one hlen
        obtain ⟨⟨p, hentry, hlimit, htext⟩, hrest⟩ := hreads
        obtain rfl := Option.some.inj (hsrc.symm.trans hentry)
        exact ⟨text, rest, rfl, Nat.succ.inj hlen, hlimit, htext, hrest⟩
      refine Ensures.ite (fun hlimit => Ensures.any.bind fun _ => Ensures.pure fun s _ =>
        ⟨fun h => absurd h efault_ne_zero, ?_⟩) fun hlimit => ?_
      · rintro ⟨texts, hlen, hreads, -⟩
        obtain ⟨text, rest, -, -, hlt, -⟩ := hread texts hlen hreads
        exact absurd hlimit (BitVec.not_le.mpr hlt)
      refine (readUser_ensures _).bind fun text => Ensures.pull fun htext => ?_
      refine Ensures.ite (fun hlarge => Ensures.any.bind fun _ => Ensures.pure fun s _ =>
        ⟨fun h => absurd h e2big_ne_zero, ?_⟩) fun hfits => ?_
      · rintro ⟨texts, hlen, hreads, hbytes, -⟩
        obtain ⟨text', rest, rfl, -, -, htext', -⟩ := hread texts hlen hreads
        obtain rfl := Option.some.inj (htext.symm.trans htext')
        rw [textBytes, List.map_cons, List.sum_cons] at hbytes
        omega
      refine request_asked.bind fun b => Ensures.pull fun hb => ?_
      cases hgranted : granted first with
      | false =>
          rw [hgranted, if_neg Bool.false_ne_true] at hb
          subst hb
          refine Ensures.any.bind fun _ => Ensures.pure fun s _ => ⟨fun h => absurd h enomem_ne_zero, ?_⟩
          rintro ⟨-, -, -, -, hall⟩
          exact absurd (hall 0 (Nat.succ_pos _)) (by simp [hgranted])
      | true =>
          rw [hgranted, if_pos rfl] at hb
          subst hb
          refine ih.mono (fun s hs => hs) fun r s hpost => ⟨fun herr => ?_, ?_⟩
          · obtain ⟨hasked, new, hvec, hlen, hreads, hbudget, hall⟩ := hpost.1 herr
            rw [Nat.add_assoc, Nat.add_comm 1] at hasked
            refine ⟨hasked, ⟨some first, text⟩ :: new, ?_, by simp [hlen], ?_, ?_, ?_⟩
            · rw [hvec, List.append_assoc]
              rfl
            · rw [List.length_append] at hreads
              exact ⟨⟨src, hsrc, BitVec.not_le.mp hlimit, htext⟩, hreads⟩
            · rw [List.map_cons, textBytes, List.map_cons, List.sum_cons, ← textBytes]
              dsimp only
              omega
            · intro i hi
              rcases i with _ | i
              · exact hgranted
              · have hnext := hall i (Nat.lt_of_succ_lt_succ hi)
                rwa [Nat.add_assoc, Nat.add_comm 1] at hnext
          · rintro ⟨texts, hlen, hreads, hbytes, hall⟩
            obtain ⟨text', rest, rfl, hrest, -, htext', hreads'⟩ := hread texts hlen hreads
            obtain rfl := Option.some.inj (htext.symm.trans htext')
            rw [textBytes, List.map_cons, List.sum_cons, ← textBytes] at hbytes
            refine hpost.2 ⟨rest, hrest, ?_, by omega, fun i hi => ?_⟩
            · rw [List.length_append]
              exact hreads'
            · rw [Nat.add_assoc, Nat.add_comm 1]
              exact hall (i + 1) (Nat.succ_lt_succ hi)

theorem UserStrings.Counts.unique {userVec : Word} {n m : ℕ} (h : user.Counts userVec n)
    (h' : user.Counts userVec m) : n = m := by
  rcases Nat.lt_trichotomy n m with hlt | heq | hlt
  · obtain ⟨p, hp, hentry⟩ := h'.1 n hlt
    exact absurd (Option.some.inj (hentry.symm.trans h.2)) hp
  · exact heq
  · obtain ⟨p, hp, hentry⟩ := h.1 m hlt
    exact absurd (Option.some.inj (hentry.symm.trans h'.2)) hp

/-- When a vector is copied, and what the copy of one without strings leaves. -/
theorem execCopyStrvec_asked (userVec : Word) (budget : ℕ) :
    Ensures (Asked granted first) (execCopyStrvec (σ := σ) user userVec budget) fun r s =>
      (r.err = 0 ↔ user.Copied granted first userVec budget) ∧
        (r.err = 0 → userVec = 0 ∧ r.vec = none ∨ userVec ≠ 0 ∧ userVec < userVaLimit ∧
          ∃ strings, r.vec = some ⟨first, strings⟩ ∧ user.Counts userVec strings.length ∧
            granted first = true ∧
            (strings = [] → Asked granted (first + 1) s ∧ r.budget = budget)) := by
  rw [execCopyStrvec]
  refine Ensures.ite (fun hzero => Ensures.pure fun s _ =>
    ⟨iff_of_true rfl (Or.inl hzero), fun _ => Or.inl ⟨hzero, rfl⟩⟩) fun hzero => ?_
  have hfails : ∀ {err : Word}, err ≠ 0 → ¬ user.Copied granted first userVec budget →
      ∀ s : Ledger × ExecWorld σ,
        (err = 0 ↔ user.Copied granted first userVec budget) ∧
        (err = 0 → userVec = 0 ∧ (none : Option StringVec) = none ∨ userVec ≠ 0 ∧
          userVec < userVaLimit ∧ ∃ strings, none = some (⟨first, strings⟩ : StringVec) ∧
            user.Counts userVec strings.length ∧ granted first = true ∧
            (strings = [] → Asked granted (first + 1) s ∧ budget = budget)) :=
    fun herr hnot s => ⟨iff_of_false herr hnot, fun h => absurd h herr⟩
  refine Ensures.ite (fun hlimit => Ensures.pure fun s _ => hfails efault_ne_zero ?_ s)
    fun hlimit => ?_
  · rintro (hnull | ⟨hlt, -⟩)
    · exact hzero hnull
    · exact absurd hlimit (BitVec.not_le.mpr hlt)
  refine (countStrings_ensures fun i hi => absurd hi (Nat.not_lt_zero i)).bind fun count =>
    Ensures.pull fun hsome => Ensures.pull fun hnone => ?_
  cases count with
  | none =>
      refine Ensures.pure fun s _ => hfails e2big_ne_zero ?_ s
      rintro (hnull | ⟨-, texts, -, hcounts, hlen, -⟩)
      · exact hzero hnull
      · exact hnone rfl texts.length (by omega) hcounts
  | some count =>
      obtain ⟨hcounts, hcount⟩ := hsome count rfl
      refine request_asked.bind fun b => Ensures.pull fun hb => ?_
      by_cases hgranted : granted first = true
      swap
      · rw [if_neg hgranted] at hb
        subst hb
        refine Ensures.pure fun s _ => hfails enomem_ne_zero ?_ s
        rintro (hnull | ⟨-, texts, -, -, -, -, hall⟩)
        · exact hzero hnull
        · exact hgranted (hall 0 (Nat.zero_le _))
      · rw [if_pos hgranted] at hb
        subst hb
        refine copyStrings_asked.mono (fun s hs => hs) fun r s hpost => ⟨⟨fun herr => ?_, ?_⟩,
          fun herr => ?_⟩
        · obtain ⟨-, new, -, hlen, hreads, hbudget, hall⟩ := hpost.1 herr
          refine Or.inr ⟨BitVec.not_le.mp hlimit, new.map HeapString.text, hreads, ?_, ?_, ?_,
            fun i hi => ?_⟩
          · rwa [List.length_map, hlen]
          · rw [List.length_map]
            omega
          · omega
          · rw [List.length_map] at hi
            rcases i with _ | i
            · exact hgranted
            · have hnext := hall i (by omega)
              rwa [Nat.add_assoc, Nat.add_comm 1] at hnext
        · rintro (hnull | ⟨-, texts, hreads, hcounts', -, hbytes, hall⟩)
          · exact absurd hnull hzero
          · obtain rfl := hcounts'.unique hcounts
            refine hpost.2 ⟨texts, rfl, hreads, hbytes, fun i hi => ?_⟩
            rw [Nat.add_assoc, Nat.add_comm 1]
            exact hall (i + 1) hi
        · obtain ⟨hasked, new, hvec, hlen, -, hbudget, -⟩ := hpost.1 herr
          refine Or.inr ⟨hzero, BitVec.not_le.mp hlimit, new, hvec, by rwa [hlen], hgranted, ?_⟩
          rintro rfl
          obtain rfl : count = 0 := hlen.symm
          exact ⟨hasked, hbudget⟩

/-! ### The exit -/

theorem dropPath_of_notMem {path : ℕ} {argv : Option StringVec} (h : path ∉ vecBlocks argv) :
    dropPath path argv = argv := by
  rcases argv with _ | ⟨vec, _ | ⟨s, _ | ⟨s', strings⟩⟩⟩
  · rfl
  · rfl
  · have hne : s.block ≠ some path := fun hblock => h (by
      simp [vecBlocks, StringVec.blocks, hblock])
    rw [dropPath, if_neg hne]
  · rfl

/-- At the label `out` all is freed but what was lost before. -/
theorem execveOut_ensures (path : ℕ) (argv envp : Option StringVec) (image : Option ℕ)
    (err : Word) :
    Ensures (Books (vecBlocks (dropPath path argv) ++
        (vecBlocks envp ++ (image.toList ++ path :: held))) Rest)
      (execveOut path argv envp image err) fun ret s => ret = err ∧ Books held Rest s := by
  refine (execFreeStrvec_ensures _).bind fun _ => ?_
  refine (execFreeStrvec_ensures envp).bind fun _ => ?_
  refine release_ensures.bind fun _ => ?_
  have hpath : Ensures (Books (path :: held) Rest) (release (some path)) fun _ =>
      Books held Rest := @release_ensures _ held Rest (some path)
  exact hpath.bind fun _ => Ensures.pure fun s hs => ⟨rfl, hs⟩

/-- An exit with an error leaves the caller as it is. -/
theorem execveOut_fails {path : ℕ} {argv envp : Option StringVec} (image : Option ℕ)
    (err : Word) :
    Ensures (Books (vecBlocks (dropPath path argv) ++
        (vecBlocks envp ++ (image.toList ++ path :: held))) fun w : ExecWorld σ =>
          w.caller = caller)
      (execveOut path argv envp image err) fun ret =>
        Books held fun w => ret ≠ 0 → w.caller = caller :=
  (execveOut_ensures path argv envp image err).mono (fun _ hs => hs)
    fun _ _ hs => ⟨hs.2.1, fun _ => hs.2.2⟩

end Copies

section Call

variable {σ : Type} {kernel : ExecKernel σ} {user : UserStrings} {granted : ℕ → Bool}
  {held : List ℕ} {caller : Option ExecCaller} {path : ℕ} {pathText : List Byte}
  {argv envp : Option StringVec} {fuel : ℕ} {conv : BitVec 32}

theorem readImage_ensures {node size total : Word} {image : Word → Byte} :
    Ensures (Books held fun w => w.caller = caller)
      (readImage kernel node size fuel total image) fun _ =>
        Books held fun w => w.caller = caller := by
  induction fuel generalizing total image with
  | zero => exact Ensures.throw
  | succ fuel ih =>
      rw [readImage]
      refine Ensures.ite (fun _ => ?_) fun _ => Ensures.pure fun s hs => hs
      refine (callKernel_ensures _).bind fun r => ?_
      exact Ensures.ite (fun _ => Ensures.pure fun s hs => hs) fun _ => ih

theorem processReplace_ensures (prepared : ElfPrepared) (name : List Byte)
    {Rest : ExecWorld σ → Prop} :
    Ensures (Books held Rest) (processReplace kernel prepared name) fun _ =>
      Books held fun _ => True := by
  rintro ⟨l, w⟩ ⟨howes, -⟩ _ s' hrun
  cases hrun
  exact ⟨howes, trivial⟩

theorem perm_third (as bs cs : List ℕ) (b : Option ℕ) :
    (as ++ (bs ++ (b.toList ++ cs))).Perm (b.toList ++ (as ++ (bs ++ cs))) :=
  ((List.perm_append_comm_assoc bs b.toList cs).append_left as).trans
    (List.perm_append_comm_assoc as b.toList (bs ++ cs))

/-- Behind the copies, all that is held is freed. -/
theorem execveWith_ensures :
    Ensures (Books (vecBlocks (dropPath path argv) ++ (vecBlocks envp ++ path :: held))
        fun w => w.caller = caller)
      (execveWith kernel fuel conv path pathText argv envp) fun ret =>
        Books held fun w => ret ≠ 0 → w.caller = caller := by
  rw [execveWith]
  refine (callKernel_ensures _).bind fun node => ?_
  cases node with
  | none => exact execveOut_fails none _
  | some node =>
      refine Ensures.ite (fun _ => execveOut_fails none _) fun _ => ?_
      refine Ensures.ite (fun _ => execveOut_fails none _) fun _ => ?_
      refine Ensures.ite (fun _ => execveOut_fails none _) fun _ => ?_
      refine request_ensures.bind fun b => ?_
      cases b with
      | none => exact execveOut_fails none _
      | some image =>
          have hfails := @execveOut_fails σ held caller path argv envp (some image)
          refine Ensures.mono ?_ (fun s hs => hs.perm (perm_third _ _ _ _)) fun _ _ hs => hs
          refine (callKernel_ensures _).bind fun bytes => ?_
          refine readImage_ensures.bind fun r => ?_
          refine Ensures.ite (fun _ => hfails _) fun _ => ?_
          refine (callKernel_ensures _).bind fun p => ?_
          refine Ensures.ite (fun _ => hfails _) fun _ => ?_
          refine (processReplace_ensures _ _).bind fun _ => ?_
          refine (execveOut_ensures path argv envp (some image) 0).mono (fun _ hs => hs) ?_
          exact fun ret s hs => ⟨hs.2.1, fun hne => absurd hs.1 hne⟩

theorem execveDefault_ensures :
    Ensures (Books (vecBlocks envp ++ path :: held) fun w => w.caller = caller)
      (execveDefault kernel fuel conv path pathText envp) fun ret =>
        Books held fun w => ret ≠ 0 → w.caller = caller := by
  rw [execveDefault]
  refine request_ensures.bind fun b => ?_
  cases b with
  | none => exact @execveOut_fails σ held caller path none envp none enomem
  | some vec =>
      refine execveWith_ensures.mono (fun s hs => ?_) fun _ _ hs => hs
      rw [dropPath, if_pos rfl]
      exact hs

/-- An `argv` that is null, or has strings, is freed. -/
theorem execveEnvp_ensures {argv : CopiedVec} {userEnvp : Word}
    (h : ∀ vec, argv.vec = some vec → vec.strings ≠ []) (hpath : path ∉ vecBlocks argv.vec) :
    Ensures (Books (vecBlocks argv.vec ++ [path]) fun w => w.caller = caller)
      (execveEnvp kernel user fuel conv userEnvp path pathText argv) fun ret =>
        Books [] fun w => ret ≠ 0 → w.caller = caller := by
  have hdrop := dropPath_of_notMem hpath
  rw [execveEnvp]
  refine (execCopyStrvec_ensures _ _).bind fun envp => ?_
  have hswap : ∀ s : Ledger × ExecWorld σ,
      Books (vecBlocks envp.vec ++ (vecBlocks argv.vec ++ [path])) (fun w => w.caller = caller) s →
      Books (vecBlocks (dropPath path argv.vec) ++ (vecBlocks envp.vec ++ [path]))
        (fun w => w.caller = caller) s := fun s hs => by
    rw [hdrop]
    exact hs.perm (List.perm_append_comm_assoc _ _ _)
  refine Ensures.ite (fun _ => ?_) fun _ => Ensures.ite (fun hempty => ?_) fun _ => ?_
  · exact (execveOut_fails none _).mono hswap fun _ _ hs => hs
  · cases hvec : argv.vec with
    | none => exact execveDefault_ensures
    | some vec =>
        rw [hvec, Option.map_some, Option.getD_some, StringVec.texts, List.map_eq_nil_iff] at hempty
        exact absurd hempty (h vec hvec)
  · exact execveWith_ensures.mono hswap fun _ _ hs => hs

/-- An `argv` without strings is lost where `envp` is copied. -/
theorem execveEnvp_loses {vec budget : ℕ} {userEnvp : Word} :
    Ensures (fun s => Books [vec, path] (fun w => w.caller = caller) s ∧ Asked granted 2 s)
      (execveEnvp kernel user fuel conv userEnvp path pathText ⟨0, some ⟨vec, []⟩, budget⟩)
      fun ret s => ∃ lost, Books lost (fun w => ret ≠ 0 → w.caller = caller) s ∧
        (lost ≠ [] ↔ user.Copied granted 2 userEnvp budget) := by
  have hdrop : dropPath path (some ⟨vec, []⟩) = some ⟨vec, []⟩ := rfl
  rw [execveEnvp]
  refine ((execCopyStrvec_ensures _ _).and (execCopyStrvec_asked _ _)).bind fun envp => ?_
  refine Ensures.ite (fun herr => ?_) fun herr => ?_
  · rintro s ⟨hbooks, hcopied, -⟩ ret s' hrun
    have hs : Books (vecBlocks (dropPath path (some ⟨vec, []⟩)) ++
        (vecBlocks envp.vec ++ [path])) (fun w => w.caller = caller) s :=
      hbooks.perm (List.perm_append_comm_assoc [vec] (vecBlocks envp.vec) [path])
    exact ⟨[], execveOut_fails none _ s hs ret s' hrun,
      iff_of_false (fun h => h rfl) fun h => herr (hcopied.mpr h)⟩
  · rintro s ⟨hbooks, hcopied, -⟩ ret s' hrun
    have hs : Books (vecBlocks envp.vec ++ path :: [vec]) (fun w => w.caller = caller) s :=
      hbooks.perm ((List.Perm.swap vec path []).append_left _)
    exact ⟨[vec], execveDefault_ensures s hs ret s' hrun,
      iff_of_true (List.cons_ne_nil _ _) (hcopied.mp (not_not.mp herr))⟩

/-- What is lost once the path is copied. -/
theorem execveArgv_ensures {userArgv userEnvp : Word} :
    Ensures (fun s => Books [path] (fun w => w.caller = caller) s ∧ Asked granted 1 s)
      (execveArgv kernel user fuel conv userArgv userEnvp path pathText) fun ret s =>
        ∃ lost, Books lost (fun w => ret ≠ 0 → w.caller = caller) s ∧
          (lost ≠ [] ↔ (userArgv ≠ 0 ∧ userArgv < userVaLimit ∧ user.entry userArgv 0 = some 0) ∧
            granted 1 = true ∧ user.Copied granted 2 userEnvp execMaxArgBytes) := by
  rw [execveArgv]
  refine ((execCopyStrvec_ensures _ _).and (execCopyStrvec_asked _ _)).bind fun argv => ?_
  rintro s ⟨hbooks, hcopied, hargv⟩ ret s' hrun
  have hnodup := hbooks.1.nodup
  have hnotMem : path ∉ vecBlocks argv.vec := fun hmem =>
    List.disjoint_of_nodup_append hnodup hmem (List.mem_singleton_self path)
  by_cases herr : argv.err = 0
  · rw [if_neg (not_not.mpr herr)] at hrun
    rcases hargv herr with ⟨hnull, hvec⟩ | ⟨-, hlimit, strings, hvec, hcounts, hgranted, hempty⟩
    · -- null: the path takes its place, and nothing is lost
      have hstrings : ∀ vec, argv.vec = some vec → vec.strings ≠ [] := by
        rw [hvec]
        rintro vec ⟨⟩
      exact ⟨[], execveEnvp_ensures hstrings hnotMem s hbooks ret s' hrun,
        iff_of_false (fun h => h rfl) fun h => h.1.1 hnull⟩
    · by_cases hnil : strings = []
      · subst hnil
        obtain ⟨hasked, hbudget⟩ := hempty rfl
        obtain ⟨err, vec, budget⟩ := argv
        obtain rfl : err = 0 := herr
        obtain rfl : vec = some ⟨1, []⟩ := hvec
        obtain rfl : budget = execMaxArgBytes := hbudget
        obtain ⟨lost, hlost, hiff⟩ := execveEnvp_loses s ⟨hbooks, hasked⟩ ret s' hrun
        refine ⟨lost, hlost, hiff.trans ⟨fun h => ⟨⟨?_, hlimit, hcounts.2⟩, hgranted, h⟩,
          fun h => h.2.2⟩⟩
        rintro rfl
        exact absurd (hargv rfl) (by simp)
      · have hstrings : ∀ vec, argv.vec = some vec → vec.strings ≠ [] := by
          rw [hvec]
          rintro vec ⟨⟩
          exact hnil
        refine ⟨[], execveEnvp_ensures hstrings hnotMem s hbooks ret s' hrun,
          iff_of_false (fun h => h rfl) ?_⟩
        rintro ⟨⟨-, -, hfirst⟩, -⟩
        have hzero := hcounts.unique ⟨fun i hi => absurd hi (Nat.not_lt_zero i), hfirst⟩
        exact hnil (List.length_eq_zero_iff.mp hzero)
  · rw [if_pos herr] at hrun
    have hs : Books (vecBlocks (dropPath path argv.vec) ++ [path])
        (fun w => w.caller = caller) s := by
      rw [dropPath_of_notMem hnotMem]
      exact hbooks
    refine ⟨[], execveOut_fails none _ s hs ret s' hrun, iff_of_false (fun h => h rfl) ?_⟩
    rintro ⟨⟨-, hlimit, hfirst⟩, hgranted, -⟩
    refine herr (hcopied.mpr (Or.inr ⟨hlimit, [], trivial, ⟨?_, hfirst⟩, Nat.zero_le _,
      Nat.zero_le _, ?_⟩))
    · exact fun i hi => absurd hi (Nat.not_lt_zero i)
    · rintro i hi
      obtain rfl := Nat.le_zero.mp hi
      exact hgranted

/-- What is lost of the blocks of a call of a process. -/
theorem execvePath_ensures {regs : SyscallRegs} (hcaller : caller.isSome = true) :
    Ensures (fun s => Books [] (fun w => w.caller = caller) s ∧ Asked granted 0 s)
      (execvePath kernel user fuel conv regs) fun ret s =>
        ∃ lost, Books lost (fun w => ret ≠ 0 → w.caller = caller) s ∧
          (lost ≠ [] ↔ LosesArgv user granted regs caller) := by
  have hfails : ∀ ret : Word, ¬ LosesArgv user granted regs caller →
      Ensures (fun s => Books [] (fun w => w.caller = caller) s ∧ Asked granted 0 s)
        (pure ret : Charging (ExecWorld σ) Word) fun ret s =>
          ∃ lost, Books lost (fun w => ret ≠ 0 → w.caller = caller) s ∧
            (lost ≠ [] ↔ LosesArgv user granted regs caller) := fun ret hnot =>
    Ensures.pure fun s hs =>
      ⟨[], ⟨hs.1.1, fun _ => hs.1.2⟩, iff_of_false (fun h => h rfl) hnot⟩
  rw [execvePath]
  refine Ensures.ite (fun hpath => hfails _ fun h => ?_) fun hpath => ?_
  · exact hpath.elim h.path.1 (BitVec.not_le.mpr h.path.2.1)
  rw [not_or, BitVec.not_le] at hpath
  refine (readUser_ensures _).bind fun text => Ensures.pull fun htext => ?_
  refine Ensures.ite (fun hlong => hfails _ fun h => ?_) fun hlong => ?_
  · obtain ⟨text', htext', hlen⟩ := h.path.2.2
    obtain rfl := Option.some.inj (htext.symm.trans htext')
    omega
  refine (request_ensures.and request_asked).bind fun b => ?_
  rintro s ⟨hbooks, rfl, hasked⟩ ret s' hrun
  by_cases hgranted : granted 0 = true
  · rw [if_pos hgranted] at hbooks hrun
    obtain ⟨lost, hlost, hiff⟩ := execveArgv_ensures s ⟨hbooks, hasked⟩ ret s' hrun
    refine ⟨lost, hlost, hiff.trans ⟨fun h => ?_, fun h => ⟨h.argv, h.argvBlock, h.envp⟩⟩⟩
    exact ⟨hcaller, ⟨hpath.1, hpath.2, text, htext, by omega⟩, hgranted, h.1, h.2.1, h.2.2⟩
  · rw [if_neg hgranted] at hbooks hrun
    cases hrun
    exact ⟨[], ⟨hbooks.1, fun _ => hbooks.2⟩,
      iff_of_false (fun h => h rfl) fun h => hgranted h.pathBlock⟩

/-- What is lost of the blocks of a call. -/
theorem syscallExecve_ensures (regs : SyscallRegs) :
    Ensures (fun s => Books [] (fun w => w.caller = caller) s ∧ Asked granted 0 s)
      (syscallExecve kernel user fuel regs) fun ret s =>
        ∃ lost, Books lost (fun w => ret ≠ 0 → w.caller = caller) s ∧
          (lost ≠ [] ↔ LosesArgv user granted regs caller) := by
  rw [syscallExecve]
  refine Ensures.get.bind fun s₀ => ?_
  rintro s ⟨rfl, hs⟩ ret s' hrun
  obtain ⟨l, w⟩ := s₀
  obtain rfl : w.caller = caller := hs.1.2
  cases hcaller : w.caller with
  | none =>
      simp only [hcaller] at hrun
      cases hrun
      exact ⟨[], ⟨hs.1.1, fun _ => hcaller⟩,
        iff_of_false (fun h => h rfl) fun h => absurd h.caller (by simp)⟩
  | some caller =>
      simp only [hcaller] at hrun
      rw [hcaller] at hs
      exact execvePath_ensures rfl (l, w) hs ret s' hrun

/-- Each block is freed once, and a call that fails leaves the caller as it is, unless the
call loses a vector. -/
theorem execve_frees_iff (kernel : ExecKernel σ) (user : UserStrings) (granted : ℕ → Bool)
    (fuel : ℕ) (regs : SyscallRegs) (w : ExecWorld σ) {ret : Word} {s' : Ledger × ExecWorld σ}
    (hreturns : syscallExecve kernel user fuel regs (Ledger.start granted, w) = .ok ret s') :
    (s'.1.Settled ∧ (ret ≠ 0 → s'.2.caller = w.caller)) ↔
      ¬ LosesArgv user granted regs w.caller := by
  have hstart : Books [] (fun v => v.caller = w.caller) (Ledger.start granted, w) :=
    ⟨Ledger.owes_start granted, rfl⟩
  have hasked : Asked granted 0 (Ledger.start granted, w) := ⟨rfl, rfl⟩
  obtain ⟨lost, ⟨howes, hkept⟩, hiff⟩ :=
    syscallExecve_ensures regs _ ⟨hstart, hasked⟩ ret s' hreturns
  rw [← hiff, not_not, howes.settled_iff]
  exact and_iff_left hkept

end Call

/-! ### An `argv` without strings -/

/-- A kernel without files. -/
def noFiles : ExecKernel Unit where
  arch := .x86_64
  heapBytes _ _ := 0
  lookup _ _ := some (none, ())
  read _ _ _ image _ := some ((0, 0, image), ())
  elfPrepare _ _ := some ((0, ⟨0, 0, 0, 0, none, PageList.empty⟩), ())
  dropSpace _ _ _ _ := ()

def shellWorld : ExecWorld Unit := ⟨(), some ⟨sampleParent, sampleThread, sampleThread.frame⟩⟩

/-- `"/a"` at `0x1000`, and at `0x2000` a vector without strings. -/
def shellStrings : UserStrings where
  pointer a := if a = 0x2000 then some 0 else none
  text a := if a = 0x1000 then some [0x2f, 0x61] else none

/-- The files do not matter: the first vector is lost. -/
theorem not_execve_frees : ¬ ∀ (kernel : ExecKernel Unit) (user : UserStrings)
    (granted : ℕ → Bool) (fuel : ℕ) (regs : SyscallRegs) (w : ExecWorld Unit) (ret : Word)
    (s' : Ledger × ExecWorld Unit),
    syscallExecve kernel user fuel regs (Ledger.start granted, w) = .ok ret s' →
      s'.1.Settled ∧ (ret ≠ 0 → s'.2.caller = w.caller) := by
  intro h
  have hrun := h noFiles shellStrings (fun _ => true) 0 ⟨0x1000, 0x2000, 0, 0, 0, 0, 59⟩
    shellWorld _ _ rfl
  exact absurd (hrun.1.1 1 (by decide)) (by decide)

/-- Without an `argv` nothing is lost. -/
theorem execve_frees_iff_sample : ∃ s',
    syscallExecve noFiles shellStrings 0 ⟨0x1000, 0, 0, 0, 0, 0, 59⟩
        (Ledger.start fun _ => true, shellWorld) = .ok enoent s' ∧
      ((s'.1.Settled ∧ (enoent ≠ 0 → s'.2.caller = shellWorld.caller)) ↔
        ¬ LosesArgv shellStrings (fun _ => true) ⟨0x1000, 0, 0, 0, 0, 0, 59⟩
          shellWorld.caller) :=
  ⟨_, rfl, execve_frees_iff noFiles shellStrings (fun _ => true) 0 _ shellWorld rfl⟩

end Utopia
