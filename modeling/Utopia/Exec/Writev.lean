/-
`writev` against the sequence of writes of its elements.
-/
import Utopia.Exec.DescriptorChecks

namespace Utopia

/-- What a write comes to: an error code, or a number of bytes that it took. -/
inductive Transfer where
  | failed (code : Word)
  | took (bytes : Word)

/-- The word in which `do_write` returns it. -/
def Transfer.word : Transfer → Word
  | failed code => code
  | took bytes => bytes

section Sequence

variable {σ : Type} (kernel : FileKernel σ)

/-- A write that keeps errors and counts apart. -/
def transfer (data len : Word) (fd : ℤ) : Handler σ Transfer := do
  if fd < 0 ∨ maxFilesPerProcess ≤ fd then return .failed ebadf
  if !(← desc fd).used then return .failed ebadf
  if fd = 1 ∨ fd = 2 then
    external (kernel.userPrint data len)
    return .took len
  let vnode := (← desc fd).vnode
  if vnode = 0 then return .failed ebadf
  if ← vnodeField kernel.isDir vnode then return .failed eisdir
  if !(← vnodeField kernel.hasWrite vnode) then return .failed erofs
  let (res, bytesWritten) ← external (kernel.write vnode data len (← desc fd).offset)
  if res ≠ 0 then return .failed (res.signExtend 64)
  setDesc fd fun d => { d with offset := d.offset + bytesWritten }
  return .took bytesWritten

theorem doWrite_eq (data len : Word) (fd : ℤ) :
    doWrite kernel data len fd = Transfer.word <$> transfer kernel data len fd := by
  rw [doWrite, transfer]
  simp only [map_bind, apply_ite (Functor.map Transfer.word), map_pure, Transfer.word]

/-- The write of the element at `iov`. -/
def transferAt (fd : ℤ) (iov : Word) : Handler σ Transfer := do
  transfer kernel (← load kernel iov 8) (← load kernel (iov + 8) 8) fd

/-- The writes of `left` elements from the one at `iov` on, up to the first that falls
short or fails: the number of bytes that they take, or the error if they take none. -/
def writeElements (fd : ℤ) : (left : Nat) → (iov : Word) → (total : Nat) →
    Handler σ (Except Word Nat)
  | 0, _, total => return .ok total
  | left + 1, iov, total => do
      match ← transferAt kernel fd iov with
      | .failed code => return if total = 0 then .error code else .ok total
      | .took bytes =>
          let total := total + bytes.toNat
          if bytes < (← load kernel (iov + 8) 8) then return .ok total
          writeElements fd left (iov + 16) total

end Sequence

/-- The return register of such an outcome, as long as it can hold the number. -/
def returnValue : Except Word Nat → Option Word
  | .error code => some code
  | .ok total => if total < 2 ^ 64 then some (BitVec.ofNat 64 total) else none

section Condition

variable {σ : Type} (kernel : FileKernel σ)

/-- After a write that returned `ret`, the loop ends at the element at `iov` in any case. -/
def WriteEndsAt (left : Nat) (iov ret : Word) (w : FileWorld σ) : Prop :=
  ∃ len w', load kernel (iov + 8) 8 w = .ok len w' ∧ (left = 0 ∨ ret < len)

/-- No write that the elements come to is taken for something else: an error is
`-EBADF`, or comes before any byte was taken and where the loop ends, and so for a count
with the bits of `-EBADF`. -/
def Separated (fd : ℤ) : (left : Nat) → (iov : Word) → (total : Nat) → FileWorld σ → Prop
  | 0, _, _, _ => True
  | left + 1, iov, total, w =>
      match transferAt kernel fd iov w with
      | .error _ _ => True
      | .ok (.failed code) w => code = ebadf ∨ total = 0 ∧ WriteEndsAt kernel left iov code w
      | .ok (.took bytes) w =>
          if bytes = ebadf then total = 0 ∧ WriteEndsAt kernel left iov bytes w
          else ∀ len w', load kernel (iov + 8) 8 w = .ok len w' → len ≤ bytes →
            Separated fd left (iov + 16) (total + bytes.toNat) w'

/-- The number of bytes fits a register, if the elements come to one. -/
def FitsRegister : EStateM.Result Unit (FileWorld σ) (Except Word Nat) → Prop
  | .ok (.ok total) _ => total < 2 ^ 64
  | _ => True

end Condition

section Loop

variable {σ : Type} {kernel : FileKernel σ} {fd : ℤ} {iov : Word} {w w' : FileWorld σ}

/-- A load changes nothing. -/
theorem load_state {a : Word} {n : Nat} {v : Word} (h : load kernel a n w = .ok v w') :
    w' = w := by
  have hrun : load kernel a n w = if kernel.accessible w.mem a n then
      .ok (BitVec.ofNat 64 (w.mem.loadField a n)) w else .error () w := by
    rw [load, get_bind_run]
    split <;> rfl
  rw [hrun] at h
  split at h <;> cases h
  rfl

/-- A write that fails has a code. -/
theorem transfer_failed {data len code : Word}
    (h : transfer kernel data len fd w = .ok (.failed code) w') : code ≠ 0 := by
  have hkeeps : Keeps (fun _ => True) (transfer kernel data len fd)
      fun t => ∀ code, t = .failed code → code ≠ 0 := by
    have hfailed : ∀ {code : Word}, code ≠ 0 → ∀ code', Transfer.failed code = .failed code' →
        code' ≠ 0 := by
      rintro code hcode code' ⟨⟩
      exact hcode
    have htrue : Watches (σ := σ) (fun _ => True) fun _ => True :=
      ⟨fun _ _ => trivial, fun _ _ _ => trivial⟩
    rw [transfer]
    refine Keeps.guard (hfailed (by decide)) fun _ => ?_
    refine Keeps.bind (desc_keeps htrue trivial) fun d _ => ?_
    refine Keeps.guard (hfailed (by decide)) fun _ => ?_
    refine Keeps.ite (fun _ => ?_) fun _ => ?_
    · exact Keeps.bind (external_keeps htrue _) fun _ _ => Keeps.pure (by rintro _ ⟨⟩)
    refine Keeps.bind (desc_keeps htrue trivial) fun d _ => ?_
    refine Keeps.guard (hfailed (by decide)) fun _ => ?_
    refine Keeps.bind (vnodeField_keeps _ _) fun _ _ => ?_
    refine Keeps.guard (hfailed (by decide)) fun _ => ?_
    refine Keeps.bind (vnodeField_keeps _ _) fun _ _ => ?_
    refine Keeps.guard (hfailed (by decide)) fun _ => ?_
    refine Keeps.bind (desc_keeps htrue trivial) fun d _ => ?_
    refine Keeps.bind (external_keeps htrue _) fun result _ => ?_
    refine Keeps.ite (fun hres => Keeps.pure (hfailed ?_)) fun _ => ?_
    · intro hzero
      apply hres
      apply BitVec.eq_of_toInt_eq
      rw [← BitVec.toInt_signExtend_of_le (v := 64) (by decide), hzero]
      rfl
    · exact Keeps.bind (setDesc_keeps htrue trivial) fun _ _ => Keeps.pure (by rintro _ ⟨⟩)
  exact (hkeeps w trivial).2 _ _ h code rfl

/-- The table has been evaluated more than `n` times. -/
def TouchedMore {σ : Type} (n : Nat) (w : FileWorld σ) : Prop := n < w.touched.length

theorem touchedMore_watches (n : Nat) (P : ℤ → Prop) : Watches (σ := σ) (TouchedMore n) P where
  same heq hw := by rwa [TouchedMore, heq]
  step _ heq hw := by
    rw [TouchedMore] at hw ⊢
    rw [heq, List.length_cons]
    omega

/-- A write evaluates the table. -/
theorem doWrite_more (data len : Word) (hfd : InTable fd) (w : FileWorld σ) :
    TouchedMore w.touched.length (finalState (doWrite kernel data len fd w)) := by
  obtain ⟨rest, heq, hrest⟩ : ∃ rest : FileDesc → Handler σ Word,
      doWrite kernel data len fd = desc fd >>= rest ∧
        ∀ Inv : FileWorld σ → Prop, Watches Inv InTable →
          ∀ d, Keeps Inv (rest d) fun _ => True := doWrite_inTable data len hfd
  rw [heq, bind_of_ok (x := desc fd) (a := w.fds fd) rfl]
  refine (hrest _ (touchedMore_watches _ _) _).state ?_
  exact Nat.lt_succ_self _

theorem transfer_keeps {Inv : FileWorld σ → Prop} (hinv : Watches Inv InTable)
    (data len : Word) : Keeps Inv (transfer kernel data len fd) fun _ => True := by
  apply Keeps.of_map (g := Transfer.word)
  rw [← doWrite_eq]
  exact doWrite_keeps hinv data len fd

theorem transferAt_keeps {Inv : FileWorld σ → Prop} (hinv : Watches Inv InTable) :
    Keeps Inv (transferAt kernel fd iov) fun _ => True :=
  Keeps.bind (load_keeps _ _) fun _ _ => Keeps.bind (load_keeps _ _) fun _ _ =>
    transfer_keeps hinv _ _

/-- The write of an element, with what it loads. -/
theorem transferAt_run {t : Transfer} (h : transferAt kernel fd iov w = .ok t w') :
    ∃ data len, transfer kernel data len fd w = .ok t w' := by
  rw [transferAt] at h
  cases hdata : load kernel iov 8 w with
  | error e w₁ =>
      rw [bind_of_error hdata] at h
      cases h
  | ok data w₁ =>
      cases load_state hdata
      rw [bind_of_ok hdata] at h
      cases hlen : load kernel (iov + 8) 8 w with
      | error e w₂ =>
          rw [bind_of_error hlen] at h
          cases h
      | ok len w₂ =>
          cases load_state hlen
          rw [bind_of_ok hlen] at h
          exact ⟨data, len, h⟩

theorem transferAt_more {t : Transfer} (hfd : InTable fd)
    (h : transferAt kernel fd iov w = .ok t w') : TouchedMore w.touched.length w' := by
  obtain ⟨data, len, hrun⟩ := transferAt_run h
  have hmore := @doWrite_more _ kernel _ data len hfd w
  rw [doWrite_eq, map_of_ok hrun] at hmore
  exact hmore

/-- A descriptor outside the table fails with `-EBADF`. -/
theorem inTable_of_transferAt {t : Transfer} (h : transferAt kernel fd iov w = .ok t w')
    (ht : t ≠ .failed ebadf) : InTable fd := by
  by_contra hfd
  obtain ⟨data, len, hrun⟩ := transferAt_run h
  have hcheck : fd < 0 ∨ maxFilesPerProcess ≤ fd := by
    rw [InTable] at hfd
    omega
  rw [transfer, if_pos hcheck] at hrun
  cases hrun
  exact ht rfl

/-- `writev` in terms of the writes of its elements. -/
theorem writevLoop_succ (left : Nat) (total : Word) :
    writevLoop kernel fd (left + 1) iov total = (do
      let t ← transferAt kernel fd iov
      if t.word = ebadf then
        return if total = 0 then ebadf else total
      else
        if t.word < (← load kernel (iov + 8) 8) then return total + t.word
        writevLoop kernel fd left (iov + 16) (total + t.word)) := by
  rw [writevLoop, transferAt]
  simp only [bind_assoc, doWrite_eq, bind_map_left]

theorem writeElements_keeps {Inv : FileWorld σ → Prop} (hinv : Watches Inv InTable)
    (left : Nat) (iov : Word) (total : Nat) :
    Keeps Inv (writeElements kernel fd left iov total) fun _ => True := by
  induction left generalizing iov total with
  | zero => exact Keeps.pure trivial
  | succ left ih =>
      rw [writeElements]
      refine Keeps.bind (transferAt_keeps hinv) fun t _ => ?_
      cases t with
      | failed code => exact Keeps.pure trivial
      | took bytes =>
          refine Keeps.bind (load_keeps _ _) fun len _ => ?_
          exact Keeps.guard trivial fun _ => ih _ _

/-- With an element left, a program that first writes it evaluates the table. -/
theorem more_of_transferAt {α : Type} {f : Transfer → Handler σ α} {a : α} (hfd : InTable fd)
    (hf : ∀ t n, Keeps (TouchedMore n) (f t) fun _ => True)
    (h : (transferAt kernel fd iov >>= f) w = .ok a w') : TouchedMore w.touched.length w' := by
  cases hrun : transferAt kernel fd iov w with
  | error e w₁ =>
      rw [bind_of_error hrun] at h
      cases h
  | ok t w₁ =>
      have hmore := (hf t w.touched.length).state (transferAt_more hfd hrun)
      rw [bind_of_ok hrun] at h
      rwa [h] at hmore

theorem writevLoop_more {left : Nat} {total ret : Word} (hfd : InTable fd)
    (h : writevLoop kernel fd (left + 1) iov total w = .ok ret w') :
    TouchedMore w.touched.length w' := by
  rw [writevLoop_succ] at h
  refine more_of_transferAt hfd (fun t n => ?_) h
  refine Keeps.guard trivial fun _ => ?_
  refine Keeps.bind (load_keeps _ _) fun len _ => ?_
  exact Keeps.guard trivial fun _ => writevLoop_keeps (touchedMore_watches _ _) _ _ _ _

theorem writeElements_more {left total : Nat} {out : Except Word Nat} (hfd : InTable fd)
    (h : writeElements kernel fd (left + 1) iov total w = .ok out w') :
    TouchedMore w.touched.length w' := by
  rw [writeElements] at h
  refine more_of_transferAt hfd (fun t n => ?_) h
  cases t with
  | failed code => exact Keeps.pure trivial
  | took bytes =>
      refine Keeps.bind (load_keeps _ _) fun len _ => ?_
      exact Keeps.guard trivial fun _ => writeElements_keeps (touchedMore_watches _ _) _ _ _

/-- A loop that goes on to another element does not come back to the state it was in. -/
theorem writeEndsAt_iff {α : Type} {left : Nat} {ret : Word} {a b : α} {next : Handler σ α}
    (hlast : left = 0 → next = pure a)
    (hmore : left ≠ 0 → ∀ b w', next w = .ok b w' → TouchedMore w.touched.length w') :
    (do if ret < (← load kernel (iov + 8) 8) then return a else next : Handler σ α) w = .ok b w ↔
      WriteEndsAt kernel left iov ret w ∧ b = a := by
  rw [WriteEndsAt]
  cases hload : load kernel (iov + 8) 8 w with
  | error e w₁ =>
      rw [bind_of_error hload]
      simp
  | ok len w₁ =>
      cases load_state hload
      rw [bind_of_ok hload]
      by_cases hshort : ret < len
      · rw [if_pos hshort]
        constructor
        · rintro ⟨⟩
          exact ⟨⟨len, w, rfl, .inr hshort⟩, rfl⟩
        · rintro ⟨-, rfl⟩
          rfl
      · rw [if_neg hshort]
        by_cases hleft : left = 0
        · rw [hlast hleft]
          constructor
          · rintro ⟨⟩
            exact ⟨⟨len, w, rfl, .inl hleft⟩, rfl⟩
          · rintro ⟨-, rfl⟩
            rfl
        · constructor
          · intro hnext
            exact absurd (hmore hleft b w hnext) (lt_irrefl _)
          · rintro ⟨⟨len', w', hrun, hend⟩, -⟩
            cases hrun
            exact absurd hend (not_or.mpr ⟨hleft, hshort⟩)

theorem map_eq_ok_iff {α β : Type} {x : Handler σ α} {f : α → β} {b : β} :
    (f <$> x) w = .ok b w' ↔ ∃ a, x w = .ok a w' ∧ f a = b := by
  cases hrun : x w with
  | error e w₁ => simp [map_of_error hrun]
  | ok a w₁ =>
      rw [map_of_ok hrun]
      constructor
      · rintro ⟨⟩
        exact ⟨a, rfl, rfl⟩
      · rintro ⟨a, ⟨⟩, rfl⟩
        rfl

end Loop

section Words

variable {total : Nat} {code : Word}

theorem ofNat_eq_zero_iff (h : total < 2 ^ 64) : BitVec.ofNat 64 total = 0 ↔ total = 0 := by
  rw [← BitVec.toNat_inj, BitVec.toNat_ofNat, Nat.mod_eq_of_lt h]
  rfl

theorem returnValue_of_lt (h : total < 2 ^ 64) :
    returnValue (.ok total) = some (BitVec.ofNat 64 total) :=
  if_pos h

theorem returnValue_of_not_lt (h : ¬ total < 2 ^ 64) : returnValue (.ok total) = none :=
  if_neg h

/-- A loop that stops at an error it knows returns what the sequence comes to. -/
theorem stop_eq_iff :
    some (if BitVec.ofNat 64 total = 0 then code else BitVec.ofNat 64 total) =
        returnValue (if total = 0 then .error code else .ok total) ↔
      (total = 0 ∨ total < 2 ^ 64) := by
  by_cases hzero : total = 0
  · subst hzero
    simp [returnValue]
  rw [if_neg hzero]
  by_cases hfits : total < 2 ^ 64
  · rw [returnValue_of_lt hfits, if_neg fun h => hzero ((ofNat_eq_zero_iff hfits).mp h)]
    exact iff_of_true rfl (.inr hfits)
  · rw [returnValue_of_not_lt hfits]
    exact iff_of_false (by simp) (not_or.mpr ⟨hzero, hfits⟩)

/-- An error added to a total shows as itself only where the total is 0. -/
theorem added_eq_iff (hcode : code ≠ 0) :
    some (BitVec.ofNat 64 total + code) =
        returnValue (if total = 0 then .error code else .ok total) ↔ total = 0 := by
  by_cases hzero : total = 0
  · subst hzero
    simp [returnValue]
  rw [if_neg hzero]
  by_cases hfits : total < 2 ^ 64
  · rw [returnValue_of_lt hfits]
    exact iff_of_false (by simpa using hcode) hzero
  · rw [returnValue_of_not_lt hfits]
    exact iff_of_false (by simp) hzero

/-- A count with the bits of `-EBADF` is dropped unless it is all there is. -/
theorem dropped_eq_iff :
    some (if BitVec.ofNat 64 total = 0 then ebadf else BitVec.ofNat 64 total) =
        returnValue (.ok (total + ebadf.toNat)) ↔ total = 0 := by
  have hebadf : ebadf.toNat = 2 ^ 64 - 9 := rfl
  by_cases hzero : total = 0
  · subst hzero
    exact iff_of_true rfl rfl
  by_cases hfits : total + ebadf.toNat < 2 ^ 64
  · have hlt : total < 2 ^ 64 := by omega
    rw [returnValue_of_lt hfits, if_neg fun h => hzero ((ofNat_eq_zero_iff hlt).mp h)]
    refine iff_of_false (fun heq => ?_) hzero
    have hnat := congrArg BitVec.toNat (Option.some.inj heq)
    rw [BitVec.toNat_ofNat, BitVec.toNat_ofNat, Nat.mod_eq_of_lt hfits, Nat.mod_eq_of_lt hlt]
      at hnat
    omega
  · rw [returnValue_of_not_lt hfits]
    exact iff_of_false (by simp) hzero

/-- A total that wraps is not what the sequence comes to. -/
theorem total_eq_iff :
    some (BitVec.ofNat 64 total) = returnValue (.ok total) ↔ total < 2 ^ 64 := by
  by_cases hfits : total < 2 ^ 64
  · rw [returnValue_of_lt hfits]
    exact iff_of_true rfl hfits
  · rw [returnValue_of_not_lt hfits]
    exact iff_of_false (by simp) hfits

end Words

section Agreement

variable {σ : Type} {kernel : FileKernel σ} {fd : ℤ}

theorem result_ok_iff {α : Type} {a b : α} {w : FileWorld σ} :
    (EStateM.Result.ok a w : EStateM.Result Unit (FileWorld σ) α) = .ok b w ↔ a = b := by
  constructor
  · rintro ⟨⟩
    rfl
  · rintro rfl
    rfl

theorem fitsRegister_stop {total : Nat} {code : Word} {w : FileWorld σ} :
    FitsRegister (.ok (if total = 0 then .error code else .ok total) w) ↔
      (total = 0 ∨ total < 2 ^ 64) := by
  by_cases hzero : total = 0
  · rw [if_pos hzero]
    exact iff_of_true trivial (.inl hzero)
  · rw [if_neg hzero]
    exact ⟨.inr, fun h => h.resolve_left hzero⟩

/-- What the loop does after a write that returned `ret`. -/
def writevRest (kernel : FileKernel σ) (fd : ℤ) (left : Nat) (iov total ret : Word) :
    Handler σ Word := do
  if ret < (← load kernel (iov + 8) 8) then return total + ret
  writevLoop kernel fd left (iov + 16) (total + ret)

/-- What the sequence of writes does after one that took `bytes`. -/
def elementsRest (kernel : FileKernel σ) (fd : ℤ) (left : Nat) (iov : Word) (total : Nat)
    (bytes : Word) : Handler σ (Except Word Nat) := do
  if bytes < (← load kernel (iov + 8) 8) then return .ok total
  writeElements kernel fd left (iov + 16) total

variable {left total : Nat} {iov ret code bytes : Word} {w : FileWorld σ}

theorem writevRest_iff {total a : Word} (hfd : InTable fd) :
    writevRest kernel fd left iov total ret w = .ok a w ↔
      WriteEndsAt kernel left iov ret w ∧ a = total + ret := by
  refine writeEndsAt_iff (fun hleft => ?_) fun hleft b w' hrun => ?_
  · rw [hleft, writevLoop]
  · obtain ⟨n, rfl⟩ := Nat.exists_eq_succ_of_ne_zero hleft
    exact writevLoop_more hfd hrun

theorem elementsRest_iff {out : Except Word Nat} (hfd : InTable fd) :
    elementsRest kernel fd left iov total bytes w = .ok out w ↔
      WriteEndsAt kernel left iov bytes w ∧ out = .ok total := by
  refine writeEndsAt_iff (fun hleft => ?_) fun hleft b w' hrun => ?_
  · rw [hleft, writeElements]
  · obtain ⟨n, rfl⟩ := Nat.exists_eq_succ_of_ne_zero hleft
    exact writeElements_more hfd hrun

/-- After an error that it takes for a count, the loop returns what it should only if it
ends there with nothing transferred. -/
theorem failed_iff (hfd : InTable fd) (hcode : code ≠ 0) :
    (some <$> writevRest kernel fd left iov (BitVec.ofNat 64 total) code) w =
        .ok (returnValue (if total = 0 then .error code else .ok total)) w ↔
      total = 0 ∧ WriteEndsAt kernel left iov code w := by
  rw [map_eq_ok_iff]
  constructor
  · rintro ⟨a, hrun, heq⟩
    obtain ⟨hends, rfl⟩ := (writevRest_iff hfd).mp hrun
    exact ⟨(added_eq_iff hcode).mp heq, hends⟩
  · rintro ⟨hzero, hends⟩
    exact ⟨_, (writevRest_iff hfd).mpr ⟨hends, rfl⟩, (added_eq_iff hcode).mpr hzero⟩

/-- After a count that it takes for `-EBADF`, likewise. -/
theorem dropped_iff (hfd : InTable fd) :
    .ok (some (if BitVec.ofNat 64 total = 0 then ebadf else BitVec.ofNat 64 total)) w =
        (returnValue <$> elementsRest kernel fd left iov (total + ebadf.toNat) ebadf) w ↔
      total = 0 ∧ WriteEndsAt kernel left iov ebadf w := by
  rw [eq_comm, map_eq_ok_iff]
  constructor
  · rintro ⟨out, hrun, heq⟩
    obtain ⟨hends, rfl⟩ := (elementsRest_iff hfd).mp hrun
    exact ⟨dropped_eq_iff.mp heq.symm, hends⟩
  · rintro ⟨hzero, hends⟩
    exact ⟨_, (elementsRest_iff hfd).mpr ⟨hends, rfl⟩, (dropped_eq_iff.mpr hzero).symm⟩

/-- After any other count the two go on together. -/
theorem taken_iff
    (ih : ∀ w', (some <$> writevLoop kernel fd left (iov + 16)
          (BitVec.ofNat 64 (total + bytes.toNat))) w' =
        (returnValue <$> writeElements kernel fd left (iov + 16) (total + bytes.toNat)) w' ↔
      Separated kernel fd left (iov + 16) (total + bytes.toNat) w' ∧
        FitsRegister (writeElements kernel fd left (iov + 16) (total + bytes.toNat) w')) :
    (some <$> writevRest kernel fd left iov (BitVec.ofNat 64 total) bytes) w =
        (returnValue <$> elementsRest kernel fd left iov (total + bytes.toNat) bytes) w ↔
      (∀ len w', load kernel (iov + 8) 8 w = .ok len w' → len ≤ bytes →
          Separated kernel fd left (iov + 16) (total + bytes.toNat) w') ∧
        FitsRegister (elementsRest kernel fd left iov (total + bytes.toNat) bytes w) := by
  have hsum : BitVec.ofNat 64 (total + bytes.toNat) = BitVec.ofNat 64 total + bytes := by
    rw [BitVec.ofNat_add, BitVec.ofNat_toNat, BitVec.setWidth_eq]
  rw [writevRest, elementsRest, map_bind, map_bind]
  cases hload : load kernel (iov + 8) 8 w with
  | error e w₁ =>
      rw [bind_of_error hload, bind_of_error hload, bind_of_error hload]
      exact iff_of_true rfl ⟨by rintro _ _ ⟨⟩, trivial⟩
  | ok len w₁ =>
      rw [bind_of_ok hload, bind_of_ok hload, bind_of_ok hload, ← hsum]
      by_cases hshort : bytes < len
      · rw [if_pos hshort, if_pos hshort]
        change EStateM.Result.ok _ _ = .ok _ _ ↔ _ ∧ total + bytes.toNat < 2 ^ 64
        rw [result_ok_iff, total_eq_iff]
        refine (and_iff_right ?_).symm
        rintro _ _ ⟨⟩ hle
        exact absurd hshort (BitVec.not_lt.mpr hle)
      · rw [if_neg hshort, if_neg hshort, ih]
        refine and_congr_left fun _ => ⟨fun h => ?_, fun h => h len w₁ rfl (BitVec.not_lt.mp hshort)⟩
        rintro _ _ ⟨⟩ _
        exact h

/-- The loop of `writev` ends as the writes of its elements do, if and only if it tells
their counts from their errors and the number of bytes fits. -/
theorem writevLoop_eq_iff (left : Nat) (iov : Word) (total : Nat) (w : FileWorld σ) :
    (some <$> writevLoop kernel fd left iov (BitVec.ofNat 64 total)) w =
        (returnValue <$> writeElements kernel fd left iov total) w ↔
      Separated kernel fd left iov total w ∧
        FitsRegister (writeElements kernel fd left iov total w) := by
  induction left generalizing iov total w with
  | zero =>
      change EStateM.Result.ok (some (BitVec.ofNat 64 total)) w =
        EStateM.Result.ok (returnValue (.ok total)) w ↔ True ∧ total < 2 ^ 64
      rw [result_ok_iff, total_eq_iff, true_and]
  | succ left ih =>
      rw [writevLoop_succ, writeElements, Separated]
      cases hrun : transferAt kernel fd iov w with
      | error e w₁ =>
          rw [map_of_error (bind_of_error hrun), map_of_error (bind_of_error hrun),
            bind_of_error hrun]
          exact iff_of_true rfl ⟨trivial, trivial⟩
      | ok t w₁ =>
          rw [map_bind, map_bind, bind_of_ok hrun, bind_of_ok hrun, bind_of_ok hrun]
          cases t with
          | failed code =>
              obtain ⟨data, len, hwrite⟩ := transferAt_run hrun
              change (some <$> if code = ebadf then
                    return if BitVec.ofNat 64 total = 0 then ebadf else BitVec.ofNat 64 total
                  else writevRest kernel fd left iov (BitVec.ofNat 64 total) code) w₁ =
                .ok (returnValue (if total = 0 then .error code else .ok total)) w₁ ↔
                (code = ebadf ∨ total = 0 ∧ WriteEndsAt kernel left iov code w₁) ∧
                  FitsRegister (.ok (if total = 0 then .error code else .ok total) w₁)
              rw [fitsRegister_stop]
              by_cases hebadf : code = ebadf
              · subst hebadf
                rw [if_pos rfl]
                change EStateM.Result.ok _ _ = _ ↔ _
                rw [result_ok_iff, stop_eq_iff]
                simp
              · have hfd : InTable fd := inTable_of_transferAt hrun (by simpa using hebadf)
                rw [if_neg hebadf, failed_iff hfd (transfer_failed hwrite)]
                grind
          | took bytes =>
              have hfd : InTable fd := inTable_of_transferAt hrun (by simp)
              change (some <$> if bytes = ebadf then
                    return if BitVec.ofNat 64 total = 0 then ebadf else BitVec.ofNat 64 total
                  else writevRest kernel fd left iov (BitVec.ofNat 64 total) bytes) w₁ =
                (returnValue <$> elementsRest kernel fd left iov (total + bytes.toNat) bytes) w₁ ↔
                (if bytes = ebadf then total = 0 ∧ WriteEndsAt kernel left iov bytes w₁
                  else ∀ len w', load kernel (iov + 8) 8 w₁ = .ok len w' → len ≤ bytes →
                    Separated kernel fd left (iov + 16) (total + bytes.toNat) w') ∧
                  FitsRegister (elementsRest kernel fd left iov (total + bytes.toNat) bytes w₁)
              by_cases hebadf : bytes = ebadf
              · subst hebadf
                rw [if_pos rfl, if_pos rfl]
                change EStateM.Result.ok (some _) w₁ = _ ↔ _
                rw [dropped_iff hfd]
                refine (and_iff_left_of_imp ?_).symm
                rintro ⟨rfl, hends⟩
                rw [(elementsRest_iff hfd).mpr ⟨hends, rfl⟩]
                exact Nat.zero_add _ ▸ ebadf.isLt
              · rw [if_neg hebadf, if_neg hebadf]
                exact taken_iff fun w' => ih _ _ w'

end Agreement

section Call

variable {σ : Type} (kernel : FileKernel σ) (regs : SyscallRegs)

/-- The sequence of writes for the registers of `writev`. -/
def writeSequence : Handler σ (Except Word Nat) :=
  writeElements kernel (toInt32 regs.arg1) (toInt32 regs.arg3).toNat regs.arg2 0

/-- `writev` returns what the sequence of writes comes to, and ends in the same state. -/
def WritevAgrees (w : FileWorld σ) : Prop :=
  (some <$> syscallWritev kernel regs) w = (returnValue <$> writeSequence kernel regs) w

/-- `writev` agrees with the sequence of writes if and only if the sequence comes to no
error but `-EBADF` after a byte was taken or before the last element that it reaches, to
no count with the bits of `-EBADF` there, and to fewer than `2 ^ 64` bytes. -/
theorem writevAgrees_iff (w : FileWorld σ) :
    WritevAgrees kernel regs w ↔
      Separated kernel (toInt32 regs.arg1) (toInt32 regs.arg3).toNat regs.arg2 0 w ∧
        FitsRegister (writeSequence kernel regs w) :=
  writevLoop_eq_iff _ _ 0 w

end Call

/-- A kernel whose vnodes are directories. -/
def directoryKernel : FileKernel Unit := { bareKernel with isDir := fun _ _ => true }

/-- A process that has opened a directory as descriptor 3, with two elements of 5 bytes
at 0x400000. -/
def directoryWorld : FileWorld Unit :=
  { freshWorld with
    mem := fun a => if a = 0x400008 ∨ a = 0x400018 then 5 else 0
    fds := fun i => ⟨0x600000, 0, 0, decide (0 ≤ i ∧ i < 4)⟩ }

/-- `writev` of two elements to descriptor 3. -/
def writevDirectory : SyscallRegs := ⟨3, 0x400000, 2, 0, 0, 0, 20⟩

/-- The call returns -42 for the two errors -21. -/
theorem not_writevAgrees :
    ¬ ∀ (kernel : FileKernel Unit) (regs : SyscallRegs) (w : FileWorld Unit),
      WritevAgrees kernel regs w := by
  intro h
  obtain ⟨w, hrun⟩ : ∃ w, syscallWritev directoryKernel writevDirectory directoryWorld =
      .ok (-42) w := ⟨_, rfl⟩
  obtain ⟨w', hsequence⟩ : ∃ w', writeSequence directoryKernel writevDirectory directoryWorld =
      .ok (.error eisdir) w' := ⟨_, rfl⟩
  have hagrees := h directoryKernel writevDirectory directoryWorld
  rw [WritevAgrees, map_of_ok hrun, map_of_ok hsequence] at hagrees
  injection hagrees with hvalue
  exact absurd hvalue (by decide)

end Utopia
