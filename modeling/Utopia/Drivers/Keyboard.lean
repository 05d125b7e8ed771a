/-
The buffer of `drivers/keyboard/keyboard.c`, and any number of calls of `keyboard_read` that take
characters from it while others arrive.
-/
import Mathlib.Data.List.Induction
import Utopia.Lib.Memory
import Utopia.Lib.RingBuffer

namespace Utopia

def kbdBufSize : ℕ := 256

/-- `kbd_buf`, `kbd_head` and `kbd_tail`. -/
abbrev Keyboard := Ring Byte kbdBufSize

/-- The part of `kbd_push` under the lock. -/
def kbdPush (k : Keyboard) (c : Byte) : Keyboard :=
  let next := (k.head + 1) % kbdBufSize
  if next ≠ k.tail then { k with cells := Function.update k.cells k.head c, head := next } else k

/-- `kbd_push` does not drop the character. -/
def KbdAccepts (k : Keyboard) : Prop := (k.head + 1) % kbdBufSize ≠ k.tail

instance (k : Keyboard) : Decidable (KbdAccepts k) := inferInstanceAs (Decidable (_ ≠ _))

/-- The part of `kbd_pop` under the lock. -/
def kbdPop (k : Keyboard) : Option Byte × Keyboard :=
  if k.head ≠ k.tail then
    (some (k.cells k.tail), { k with tail := (k.tail + 1) % kbdBufSize })
  else (none, k)

def lineEnd : Byte := 0x0A

inductive ReadPhase
  | reading
  | waiting
  | returned
deriving DecidableEq, Repr

/-- A call of `keyboard_read`: what it has put into its buffer, and where it is. -/
structure KeyboardRead where
  size : Word
  buffer : List Byte
  phase : ReadPhase

namespace KeyboardRead

def start (size : Word) : KeyboardRead where
  size := size
  buffer := []
  phase := if size = 0 then .returned else .reading

/-- A call runs on to its next use of the lock or to its end.  A call that sleeps can be woken
at any time. -/
def step (k : Keyboard) (r : KeyboardRead) : Option Byte × Keyboard × KeyboardRead :=
  match r.phase with
  | .returned => (none, k, r)
  | .waiting => (none, k, { r with phase := .reading })
  | .reading =>
      if r.buffer.length < r.size.toNat then
        match kbdPop k with
        | (none, k) => (none, k, { r with phase := .waiting })
        | (some c, k) => (some c, k, { r with
            buffer := r.buffer ++ [c]
            phase := if c = lineEnd then .returned else .reading })
      else (none, k, { r with phase := .returned })

end KeyboardRead

/-- The keyboard with the calls `ι`, the characters it has accepted so far, and those it has
handed out and to which call. -/
structure KeyboardState (ι : Type) where
  keyboard : Keyboard
  reads : ι → KeyboardRead
  accepted : List Byte
  popped : List (ι × Byte)

inductive KeyboardEvent (ι : Type)
  | push (c : Byte)
  | read (i : ι)

namespace KeyboardState

variable {ι : Type} [DecidableEq ι]

/-- The keyboard after the boot, with a call of each size still to run. -/
def initial (sizes : ι → Word) : KeyboardState ι where
  keyboard := ⟨fun _ => 0, 0, 0⟩
  reads i := KeyboardRead.start (sizes i)
  accepted := []
  popped := []

def step (s : KeyboardState ι) : KeyboardEvent ι → KeyboardState ι
  | .push c => { s with
      keyboard := kbdPush s.keyboard c
      accepted := if KbdAccepts s.keyboard then s.accepted ++ [c] else s.accepted }
  | .read i =>
      let (c, keyboard, r) := (s.reads i).step s.keyboard
      { s with
        keyboard := keyboard
        reads := Function.update s.reads i r
        popped := s.popped ++ (c.toList.map (i, ·)) }

def run (s : KeyboardState ι) (events : List (KeyboardEvent ι)) : KeyboardState ι :=
  events.foldl step s

/-- What a call has been handed. -/
def handedTo (s : KeyboardState ι) (i : ι) : List Byte :=
  (s.popped.filter (·.1 = i)).map Prod.snd

end KeyboardState

/-! ### One step -/

variable {k k' : Keyboard} {xs : List Byte} {c : Byte}

theorem kbdAccepts_iff (h : k.Holds xs) : KbdAccepts k ↔ xs.length < kbdBufSize - 1 := by
  have hlength := h.length
  rw [KbdAccepts, ne_eq, h.next_eq_tail_iff]
  omega

theorem kbdPush_holds (h : k.Holds xs) (c : Byte) :
    (kbdPush k c).Holds (if KbdAccepts k then xs ++ [c] else xs) := by
  by_cases haccepts : KbdAccepts k
  · have hnext : (k.head + 1) % kbdBufSize ≠ k.tail := haccepts
    have hroom := (kbdAccepts_iff h).mp haccepts
    rw [if_pos haccepts]
    simp only [kbdPush, if_pos hnext]
    exact h.push (by omega) c
  · have hnext : ¬ (k.head + 1) % kbdBufSize ≠ k.tail := haccepts
    rw [if_neg haccepts]
    simp only [kbdPush, if_neg hnext]
    exact h

/-- `kbd_pop` hands out the oldest character, and nothing when there is none. -/
theorem kbdPop_holds (h : k.Holds xs) :
    (kbdPop k).1 = xs.head? ∧ (kbdPop k).2.Holds xs.tail := by
  cases xs with
  | nil =>
      have hempty : k.head = k.tail := h.head_eq_tail_iff.mpr rfl
      rw [kbdPop, if_neg (not_not.mpr hempty)]
      exact ⟨rfl, h⟩
  | cons x xs =>
      have hsome : k.head ≠ k.tail := fun heq => List.cons_ne_nil x xs (h.head_eq_tail_iff.mp heq)
      rw [kbdPop, if_pos hsome]
      exact ⟨congrArg some h.first, h.drop⟩

/-- A call that goes on has not seen a newline; one that has returned has seen none before its
last character. -/
structure KeyboardRead.Proper (r : KeyboardRead) : Prop where
  size : r.buffer.length ≤ r.size.toNat
  going : r.phase ≠ .returned → lineEnd ∉ r.buffer
  last : ∀ before after, r.buffer = before ++ lineEnd :: after → after = []

namespace KeyboardRead

variable {r : KeyboardRead}

theorem proper_start (size : Word) : (start size).Proper := by
  refine ⟨Nat.zero_le _, fun _ hmem => ?_, fun before after h => ?_⟩
  · cases hmem
  · exact absurd h.symm (by simp [start])

theorem Proper.withPhase (h : r.Proper) {phase : ReadPhase} (hphase : r.phase ≠ .returned) :
    KeyboardRead.Proper { r with phase := phase } :=
  ⟨h.size, fun _ => h.going hphase, h.last⟩

theorem Proper.append (h : r.Proper) (hphase : r.phase ≠ .returned)
    (hroom : r.buffer.length < r.size.toNat) (c : Byte) :
    KeyboardRead.Proper { r with
      buffer := r.buffer ++ [c]
      phase := if c = lineEnd then .returned else .reading } := by
  have hnone := h.going hphase
  refine ⟨?_, fun hgoing => ?_, fun before after heq => ?_⟩
  · rw [List.length_append, List.length_singleton]
    exact hroom
  · have hc : lineEnd ≠ c := fun hc => hgoing (if_pos hc.symm)
    simp [hnone, hc]
  · cases after using List.reverseRecOn with
    | nil => rfl
    | append_singleton after d =>
        have hsplit : r.buffer ++ [c] = (before ++ lineEnd :: after) ++ [d] := heq.trans (by simp)
        have hbuffer := (List.append_inj' hsplit rfl).1
        refine absurd ?_ hnone
        rw [hbuffer]
        simp

/-- A step takes the oldest character into the buffer of the call, or none. -/
theorem step_spec (hr : r.Proper) (h : k.Holds xs) :
    (step k r).2.2.Proper ∧ (step k r).2.2.size = r.size ∧
      (step k r).2.2.buffer = r.buffer ++ (step k r).1.toList ∧
      ∃ rest, xs = (step k r).1.toList ++ rest ∧ (step k r).2.1.Holds rest := by
  cases hphase : r.phase with
  | returned =>
      simp only [step, hphase]
      exact ⟨hr, trivial, (List.append_nil _).symm, xs, rfl, h⟩
  | waiting =>
      simp only [step, hphase]
      exact ⟨hr.withPhase (by rw [hphase]; decide), trivial, (List.append_nil _).symm, xs, rfl, h⟩
  | reading =>
      have hgoing : r.phase ≠ .returned := by
        rw [hphase]
        decide
      by_cases hroom : r.buffer.length < r.size.toNat
      · obtain ⟨hfirst, hrest⟩ := kbdPop_holds h
        simp only [step, hphase, if_pos hroom]
        generalize kbdPop k = popped at *
        obtain ⟨c, k'⟩ := popped
        cases xs with
        | nil =>
            obtain rfl : c = none := hfirst
            exact ⟨hr.withPhase hgoing, rfl, (List.append_nil _).symm, [], rfl, hrest⟩
        | cons x xs =>
            obtain rfl : c = some x := hfirst
            exact ⟨hr.append hgoing hroom x, rfl, rfl, xs, rfl, hrest⟩
      · simp only [step, hphase, if_neg hroom]
        exact ⟨hr.withPhase hgoing, trivial, (List.append_nil _).symm, xs, rfl, h⟩

end KeyboardRead

/-! ### Runs -/

namespace KeyboardState

variable {ι : Type} [DecidableEq ι] {s : KeyboardState ι} {sizes : ι → Word}

/-- What has been accepted is what has been handed out, and then what is pending. -/
structure Fifo (sizes : ι → Word) (s : KeyboardState ι) : Prop where
  queue : ∃ pending, s.keyboard.Holds pending ∧ s.accepted = s.popped.map Prod.snd ++ pending
  proper : ∀ i, (s.reads i).Proper
  size : ∀ i, (s.reads i).size = sizes i
  buffer : ∀ i, (s.reads i).buffer = s.handedTo i

theorem fifo_initial (sizes : ι → Word) : (initial sizes).Fifo sizes :=
  ⟨⟨[], Ring.holds_empty _ (by decide), rfl⟩, fun _ => KeyboardRead.proper_start _,
    fun _ => rfl, fun _ => rfl⟩

theorem Fifo.push (h : s.Fifo sizes) (c : Byte) : (s.step (.push c)).Fifo sizes := by
  obtain ⟨pending, hpending, hqueue⟩ := h.queue
  refine ⟨⟨_, kbdPush_holds hpending c, ?_⟩, h.proper, h.size, h.buffer⟩
  simp only [step, hqueue]
  split_ifs
  · rw [List.append_assoc]
  · rfl

theorem Fifo.read (h : s.Fifo sizes) (i : ι) : (s.step (.read i)).Fifo sizes := by
  obtain ⟨pending, hpending, hqueue⟩ := h.queue
  obtain ⟨hproper, hsize, hbuffer, rest, hrest, hholds⟩ :=
    KeyboardRead.step_spec (h.proper i) hpending
  simp only [step]
  generalize (s.reads i).step s.keyboard = stepped at *
  obtain ⟨c, k', r⟩ := stepped
  dsimp only at *
  refine ⟨⟨rest, hholds, ?_⟩, fun j => ?_, fun j => ?_, fun j => ?_⟩
  · rw [hqueue, hrest, List.map_append, List.map_map, List.append_assoc]
    congr 1
    exact (congrArg (· ++ rest) (List.map_id c.toList)).symm
  · change KeyboardRead.Proper (Function.update s.reads i r j)
    by_cases hj : j = i
    · subst hj
      rw [Function.update_self]
      exact hproper
    · rw [Function.update_of_ne hj]
      exact h.proper j
  · change (Function.update s.reads i r j).size = sizes j
    by_cases hj : j = i
    · subst hj
      rw [Function.update_self, hsize, h.size]
    · rw [Function.update_of_ne hj, h.size]
  · change (Function.update s.reads i r j).buffer =
      ((s.popped ++ c.toList.map (i, ·)).filter (·.1 = j)).map Prod.snd
    rw [List.filter_append, List.map_append]
    by_cases hj : j = i
    · subst hj
      rw [Function.update_self, hbuffer, h.buffer j, handedTo]
      cases c <;> simp
    · rw [Function.update_of_ne hj, h.buffer j, handedTo]
      cases c <;> simp [Ne.symm hj]

theorem Fifo.run (h : s.Fifo sizes) (events : List (KeyboardEvent ι)) :
    (s.run events).Fifo sizes := by
  induction events generalizing s with
  | nil => exact h
  | cons event events ih =>
      cases event with
      | push c => exact ih (h.push c)
      | read i => exact ih (h.read i)

/-- In every run the buffer is a queue of at most 255 characters: a character is accepted as
long as there is room, what is handed out is the start of what was accepted, and each call
gets at most as many characters as it has asked for, none after a lineEnd. -/
theorem keyboard_fifo (sizes : ι → Word) (events : List (KeyboardEvent ι)) :
    (∀ c, (((initial sizes).run events).step (.push c)).accepted =
        ((initial sizes).run events).accepted ++ [c] ↔
      ((initial sizes).run events).accepted.length - ((initial sizes).run events).popped.length <
        kbdBufSize - 1) ∧
    ((initial sizes).run events).popped.map Prod.snd <+: ((initial sizes).run events).accepted ∧
    ∀ i, (((initial sizes).run events).reads i).buffer = ((initial sizes).run events).handedTo i ∧
      (((initial sizes).run events).reads i).buffer.length ≤ (sizes i).toNat ∧
      ∀ before after, (((initial sizes).run events).reads i).buffer = before ++ lineEnd :: after →
        after = [] := by
  have h := (fifo_initial sizes).run events
  generalize (initial sizes).run events = s at h ⊢
  obtain ⟨pending, hpending, hqueue⟩ := h.queue
  refine ⟨fun c => ?_, ⟨pending, hqueue.symm⟩, fun i => ⟨h.buffer i, ?_, (h.proper i).last⟩⟩
  · have hlength : s.accepted.length - s.popped.length = pending.length := by
      rw [hqueue, List.length_append, List.length_map]
      omega
    rw [hlength, ← kbdAccepts_iff hpending]
    simp only [step]
    split_ifs with haccepts
    · simp [haccepts]
    · simp [haccepts]
  · rw [← h.size i]
    exact (h.proper i).size

end KeyboardState

end Utopia
