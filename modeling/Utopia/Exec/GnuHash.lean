/-
What `elf_gnu_hash_symcount` of `exec/loaders/elf.c` reads off a GNU hash table: the number of
the dynamic symbols, which the table does not hold as a number.
-/
import Mathlib.Data.List.Flatten
import Mathlib.Data.List.GetD
import Utopia.Exec.ElfRights

namespace Utopia

/-! ### The table -/

/-- The words of a chain: hashes whose lowest bit says where the chain ends. -/
def chainWords : List (BitVec 32) → List (BitVec 32)
  | [] => []
  | [hash] => [hash ||| 1]
  | hash :: next :: rest => (hash &&& ~~~1) :: chainWords (next :: rest)

/-- The words of the buckets: the lowest symbol of each, or zero where it has none. -/
def bucketWords : (start : ℕ) → List (List (BitVec 32)) → List ℕ
  | _, [] => []
  | start, group :: groups =>
      (if group = [] then 0 else start) :: bucketWords (start + group.length) groups

/-- The symbols of the last bucket that has some. -/
def lastGroup : List (List (BitVec 32)) → List (BitVec 32)
  | [] => []
  | group :: groups => if groups.flatten = [] then group else lastGroup groups

/-- A GNU hash table: the hashes of its symbols, bucket by bucket.  The symbols below
`symoffset` are in none. -/
structure GnuHash where
  symoffset : ℕ
  bloomSize : ℕ
  groups : List (List (BitVec 32))
  symoffset_pos : 0 < symoffset
  symbols_lt : symoffset + groups.flatten.length < 2 ^ 32
  groups_lt : groups.length < 2 ^ 32
  bloomSize_lt : bloomSize < 2 ^ 32

namespace GnuHash

variable (t : GnuHash)

/-- The number of the dynamic symbols. -/
def symbols : ℕ := t.symoffset + t.groups.flatten.length

def buckets : List ℕ := bucketWords t.symoffset t.groups

def chain : List (BitVec 32) := (t.groups.map chainWords).flatten

/-- Where the table at `vaddr` has its buckets, and behind them its chains. -/
def bucketsVaddr (vaddr : Word) : Word := vaddr + 16 + BitVec.ofNat 64 t.bloomSize * 8

def chainVaddr (vaddr : Word) : Word :=
  t.bucketsVaddr vaddr + BitVec.ofNat 64 t.groups.length * 4

end GnuHash

/-- The image has the table at an address. -/
structure ElfFile.HoldsGnuHash (file : ElfFile) (vaddr : Word) (t : GnuHash) : Prop where
  header : ∃ off, file.vaddrToFileptr vaddr 16 = some off ∧
    file.u32 off = BitVec.ofNat 32 t.groups.length ∧
    file.u32 (off + 4) = BitVec.ofNat 32 t.symoffset ∧
    file.u32 (off + 8) = BitVec.ofNat 32 t.bloomSize
  buckets : t.groups ≠ [] → ∃ off,
    file.vaddrToFileptr (t.bucketsVaddr vaddr) (BitVec.ofNat 64 t.groups.length * 4) = some off ∧
    ∀ i < t.groups.length, file.u32 (off + BitVec.ofNat 64 i * 4) =
      BitVec.ofNat 32 (t.buckets.getD i 0)
  chain : ∀ i < t.groups.flatten.length, ∃ off,
    file.vaddrToFileptr (t.chainVaddr vaddr + BitVec.ofNat 64 i * 4) 4 = some off ∧
    file.u32 off = t.chain.getD i 0

/-! ### The parts of a table -/

section Parts

variable {groups : List (List (BitVec 32))} {hashes : List (BitVec 32)}

theorem length_chainWords (hashes : List (BitVec 32)) :
    (chainWords hashes).length = hashes.length := by
  induction hashes using chainWords.induct with
  | case1 => rfl
  | case2 hash => rfl
  | case3 hash next rest ih => rw [chainWords, List.length_cons, ih, List.length_cons (a := hash)]

theorem length_chain (groups : List (List (BitVec 32))) :
    ((groups.map chainWords).flatten).length = groups.flatten.length := by
  induction groups with
  | nil => rfl
  | cons group groups ih =>
      rw [List.map_cons, List.flatten_cons, List.flatten_cons, List.length_append,
        List.length_append, length_chainWords, ih]

theorem length_bucketWords (start : ℕ) (groups : List (List (BitVec 32))) :
    (bucketWords start groups).length = groups.length := by
  induction groups generalizing start with
  | nil => rfl
  | cons group groups ih => rw [bucketWords, List.length_cons, List.length_cons, ih]

theorem lastGroup_ne_nil (h : groups.flatten ≠ []) : lastGroup groups ≠ [] := by
  induction groups with
  | nil => exact absurd rfl h
  | cons group groups ih =>
      rw [lastGroup]
      split_ifs with hrest
      · rw [List.flatten_cons, hrest, List.append_nil] at h
        exact h
      · exact ih hrest

/-- The chain of the last bucket ends the table. -/
theorem exists_chain_eq (groups : List (List (BitVec 32))) :
    ∃ before, (groups.map chainWords).flatten = before ++ chainWords (lastGroup groups) ∧
      before.length + (lastGroup groups).length = groups.flatten.length := by
  induction groups with
  | nil => exact ⟨[], rfl, rfl⟩
  | cons group groups ih =>
      rw [lastGroup, List.map_cons, List.flatten_cons, List.flatten_cons, List.length_append]
      split_ifs with hrest
      · have hnone : (groups.map chainWords).flatten = [] := by
          rw [← List.length_eq_zero_iff, length_chain, hrest, List.length_nil]
        refine ⟨[], ?_, ?_⟩
        · rw [hnone, List.append_nil, List.nil_append]
        · rw [hrest, List.length_nil, Nat.zero_add, Nat.add_zero]
      · obtain ⟨before, heq, hlength⟩ := ih
        refine ⟨chainWords group ++ before, ?_, ?_⟩
        · rw [heq, List.append_assoc]
        · rw [List.length_append, length_chainWords]
          omega

theorem lastGroup_length_le (groups : List (List (BitVec 32))) :
    (lastGroup groups).length ≤ groups.flatten.length := by
  obtain ⟨before, -, hlength⟩ := exists_chain_eq groups
  omega

/-- The highest bucket is that of the last bucket with symbols. -/
theorem foldl_max_bucketWords {start top : ℕ} (htop : top ≤ start)
    (groups : List (List (BitVec 32))) :
    (bucketWords start groups).foldl max top =
      if groups.flatten = [] then top
      else start + (groups.flatten.length - (lastGroup groups).length) := by
  induction groups generalizing start top with
  | nil => rfl
  | cons group groups ih =>
      rw [bucketWords, List.foldl_cons, List.flatten_cons, lastGroup]
      have hle := lastGroup_length_le groups
      by_cases hgroup : group = []
      · subst hgroup
        rw [if_pos rfl, Nat.max_zero, List.length_nil, Nat.add_zero, ih htop, List.nil_append]
        split_ifs <;> rfl
      · have hne : group ++ groups.flatten ≠ [] := fun h => hgroup (List.append_eq_nil_iff.mp h).1
        rw [if_neg hgroup, if_neg hne, Nat.max_eq_right htop, ih (Nat.le_add_right _ _),
          List.length_append]
        split_ifs with hrest
        · rw [hrest, List.length_nil]
          omega
        · omega

end Parts

/-! ### The loops -/

section Loops

variable {file : ElfFile} {t : GnuHash}

theorem lowBit_or (hash : BitVec 32) : (hash ||| 1) &&& 1 ≠ 0 := by
  intro h
  have hbit := congrArg (fun x => x.getLsbD 0) h
  simp at hbit

theorem lowBit_and (hash : BitVec 32) : (hash &&& ~~~1) &&& 1 = 0 := by
  rw [BitVec.and_assoc, BitVec.not_and_self]
  exact BitVec.and_zero

/-- The walk along a chain counts its symbols, a million at most. -/
theorem hashChain_eq {chainVaddr : Word} {hashes : List (BitVec 32)} (hne : hashes ≠ [])
    {guard : ℕ} {idx count : Word}
    (hwords : ∀ i < hashes.length, ∃ off,
      file.vaddrToFileptr (chainVaddr + (idx + BitVec.ofNat 64 i) * 4) 4 = some off ∧
        file.u32 off = (chainWords hashes).getD i 0) :
    file.hashChain chainVaddr guard idx count =
      some (count + BitVec.ofNat 64 (min hashes.length guard)) := by
  have hzero (x : Word) : x + BitVec.ofNat 64 0 = x := BitVec.add_zero x
  induction hashes using chainWords.induct generalizing guard idx count with
  | case1 => exact absurd rfl hne
  | case2 hash =>
      cases guard with
      | zero => rw [ElfFile.hashChain, Nat.min_zero, hzero]
      | succ guard =>
          obtain ⟨off, hfound, hword⟩ := hwords 0 (Nat.succ_pos _)
          have hlast : file.u32 off &&& 1 ≠ 0 := by
            rw [hword]
            exact lowBit_or hash
          rw [hzero] at hfound
          rw [ElfFile.hashChain, hfound, Option.bind_some]
          simp only [if_pos hlast, List.length_singleton]
          rw [Nat.min_eq_left (Nat.le_add_left 1 guard)]
          rfl
  | case3 hash next rest ih =>
      cases guard with
      | zero => rw [ElfFile.hashChain, Nat.min_zero, hzero]
      | succ guard =>
          obtain ⟨off, hfound, hword⟩ := hwords 0 (Nat.succ_pos _)
          have hmore : ¬ file.u32 off &&& 1 ≠ 0 := by
            rw [hword, not_not]
            exact lowBit_and hash
          rw [hzero] at hfound
          rw [ElfFile.hashChain, hfound, Option.bind_some]
          simp only [if_neg hmore]
          rw [ih (List.cons_ne_nil _ _), List.length_cons (a := hash), Nat.succ_min_succ,
            Nat.succ_eq_add_one, Nat.add_comm _ 1, BitVec.ofNat_add, ← BitVec.add_assoc]
          · rfl
          · intro i hi
            have hnext := hwords (i + 1) (Nat.succ_lt_succ hi)
            rw [chainWords, List.getD_cons_succ, Nat.add_comm i 1, BitVec.ofNat_add,
              ← BitVec.add_assoc] at hnext
            exact hnext

theorem foldl_max_lt {words : List ℕ} {top n : ℕ} (htop : top < n)
    (hlt : ∀ word ∈ words, word < n) :
    words.foldl max top < n := by
  induction words generalizing top with
  | nil => exact htop
  | cons word words ih =>
      rw [List.forall_mem_cons] at hlt
      exact ih (max_lt htop hlt.1) hlt.2

/-- The loop over the buckets. -/
theorem foldl_buckets (read : ℕ → BitVec 32) (words : List ℕ) {n : ℕ} (hlength : words.length = n)
    (hlt : ∀ word ∈ words, word < 2 ^ 32)
    (hread : ∀ i < n, read i = BitVec.ofNat 32 (words.getD i 0)) :
    (List.range n).foldl (fun top i => if top < read i then read i else top) 0 =
      BitVec.ofNat 32 (words.foldl max 0) := by
  subst hlength
  induction words using List.reverseRecOn with
  | nil => rfl
  | append_singleton words word ih =>
      rw [List.forall_mem_append, List.forall_mem_singleton] at hlt
      rw [List.length_append, List.length_singleton] at hread ⊢
      have hword := hread words.length (Nat.lt_succ_self _)
      rw [List.getD_append_right _ _ _ _ le_rfl, Nat.sub_self, List.getD_cons_zero] at hword
      have hbefore := ih hlt.1 fun i hi => by
        rw [hread i (Nat.lt_succ_of_lt hi), List.getD_append _ _ _ _ hi]
      have htop := foldl_max_lt (by decide : 0 < 2 ^ 32) hlt.1
      rw [List.range_succ, List.foldl_append, hbefore, List.foldl_append, List.foldl_cons,
        List.foldl_nil, List.foldl_cons, List.foldl_nil, hword]
      have hmod (n : ℕ) (hn : n < 2 ^ 32) : (BitVec.ofNat 32 n).toNat = n := by
        rw [BitVec.toNat_ofNat]
        exact Nat.mod_eq_of_lt hn
      have hiff : BitVec.ofNat 32 (words.foldl max 0) < BitVec.ofNat 32 word ↔
          words.foldl max 0 < word := by
        rw [BitVec.lt_def, hmod _ htop, hmod _ hlt.2]
      by_cases hless : words.foldl max 0 < word
      · rw [if_pos (hiff.mpr hless), Nat.max_eq_right hless.le]
      · rw [if_neg (mt hiff.mp hless), Nat.max_eq_left (not_lt.mp hless)]

theorem bucketWords_lt {start n : ℕ} {groups : List (List (BitVec 32))}
    (hlt : start + groups.flatten.length < n) : ∀ word ∈ bucketWords start groups, word < n := by
  induction groups generalizing start with
  | nil => exact fun word hword => absurd hword List.not_mem_nil
  | cons group groups ih =>
      rw [List.flatten_cons, List.length_append] at hlt
      rw [bucketWords, List.forall_mem_cons]
      refine ⟨?_, ih (by omega)⟩
      split_ifs <;> omega

end Loops

/-- For an image with a GNU hash table, `elf_gnu_hash_symcount` finds the number of the dynamic
symbols.  Where the last chain is longer than a million, it leaves out the rest. -/
theorem elf_gnu_hash_symcount_eq {file : ElfFile} {vaddr : Word} {t : GnuHash}
    (h : file.HoldsGnuHash vaddr t) :
    file.gnuHashSymcount vaddr =
      some (BitVec.ofNat 64 (t.symbols - ((lastGroup t.groups).length - 1000000))) := by
  obtain ⟨header, hheader, hnbucket, hsymoffset, hbloom⟩ := h.header
  obtain ⟨before, hchain, hbefore⟩ := exists_chain_eq t.groups
  have hsymbols := t.symbols_lt
  have hgroups := t.groups_lt
  have hpos := t.symoffset_pos
  have hwide {n : ℕ} (hn : n < 2 ^ 32) : (BitVec.ofNat 32 n).setWidth 64 = BitVec.ofNat 64 n := by
    apply BitVec.eq_of_toNat_eq
    rw [BitVec.toNat_setWidth, BitVec.toNat_ofNat, BitVec.toNat_ofNat]
    omega
  have hnat {n : ℕ} (hn : n < 2 ^ 32) : (BitVec.ofNat 32 n).toNat = n := by
    rw [BitVec.toNat_ofNat]
    exact Nat.mod_eq_of_lt hn
  rw [ElfFile.gnuHashSymcount, hheader, Option.bind_some]
  simp only [hnbucket, hsymoffset, hbloom]
  by_cases hnone : t.groups = []
  · have hsame : t.symbols - ((lastGroup t.groups).length - 1000000) = t.symoffset := by
      rw [GnuHash.symbols, hnone]
      rfl
    have hzero : BitVec.ofNat 32 t.groups.length = 0 := by
      rw [hnone]
      rfl
    rw [hsame, if_pos hzero, hwide (by omega)]
  · have hlength : t.groups.length ≠ 0 := mt List.length_eq_zero_iff.mp hnone
    have hnonzero : BitVec.ofNat 32 t.groups.length ≠ 0 := by
      intro hzero
      have hlen := congrArg BitVec.toNat hzero
      rw [hnat hgroups] at hlen
      exact hlength hlen
    obtain ⟨off, hfound, hwords⟩ := h.buckets hnone
    have hmax := foldl_buckets (fun i => file.u32 (off + BitVec.ofNat 64 i * 4)) t.buckets
      (length_bucketWords _ _) (bucketWords_lt hsymbols) hwords
    rw [GnuHash.buckets, foldl_max_bucketWords (Nat.zero_le _)] at hmax
    rw [GnuHash.bucketsVaddr] at hfound
    simp only [if_neg hnonzero, hwide hgroups, hwide t.bloomSize_lt, hnat hgroups, hfound,
      Option.bind_some, hmax]
    by_cases hempty : t.groups.flatten = []
    · have hless : (0 : BitVec 32) < BitVec.ofNat 32 t.symoffset := by
        rw [BitVec.lt_def, hnat (by omega)]
        exact hpos
      have hlast : (lastGroup t.groups).length = 0 := by
        rw [hempty, List.length_nil] at hbefore
        omega
      have hsame : t.symbols - ((lastGroup t.groups).length - 1000000) = t.symoffset := by
        rw [GnuHash.symbols, hempty, hlast]
        rfl
      rw [if_pos hempty, hsame]
      exact (if_pos hless).trans (congrArg some (hwide (by omega)))
    · have hfirst : t.symoffset + (t.groups.flatten.length - (lastGroup t.groups).length) =
          t.symoffset + before.length := by omega
      have hbelow : ¬ BitVec.ofNat 32 (t.symoffset + before.length) <
          BitVec.ofNat 32 t.symoffset := by
        rw [BitVec.lt_def, hnat (by omega), hnat (by omega)]
        omega
      have hidx : (BitVec.ofNat 32 (t.symoffset + before.length) -
          BitVec.ofNat 32 t.symoffset).setWidth 64 = BitVec.ofNat 64 before.length := by
        rw [BitVec.ofNat_add, BitVec.add_comm, BitVec.add_sub_cancel, hwide (by omega)]
      rw [if_neg hempty, hfirst, if_neg hbelow, hidx, hwide (by omega)]
      refine (hashChain_eq (lastGroup_ne_nil hempty) fun i hi => ?_).trans ?_
      · obtain ⟨off, hfound, hword⟩ := h.chain (before.length + i) (by omega)
        rw [GnuHash.chain, hchain, List.getD_append_right _ _ _ _ (Nat.le_add_right _ _),
          Nat.add_sub_cancel_left] at hword
        rw [BitVec.ofNat_add] at hfound
        exact ⟨off, hfound, hword⟩
      · have hcount : t.symoffset + before.length + min (lastGroup t.groups).length 1000000 =
            t.symbols - ((lastGroup t.groups).length - 1000000) := by
          rw [GnuHash.symbols]
          omega
        rw [← BitVec.ofNat_add, hcount]

/-- Three buckets, the middle one empty. -/
def sampleGnuHash : GnuHash where
  symoffset := 1
  bloomSize := 0
  groups := [[0x30, 0x63], [], [0x52]]
  symoffset_pos := by decide
  symbols_lt := by decide
  groups_lt := by decide
  bloomSize_lt := by decide

/-- The image with that table behind its only program header. -/
def sampleGnuHashFile : ElfFile :=
  ElfFile.ofList (sampleEhdr 1 ++ samplePhdr 4 0 160 ++
    littleEndian 3 4 ++ littleEndian 1 4 ++ littleEndian 0 4 ++ littleEndian 6 4 ++
    littleEndian 1 4 ++ littleEndian 0 4 ++ littleEndian 3 4 ++
    littleEndian 0x30 4 ++ littleEndian 0x63 4 ++ littleEndian 0x53 4)

theorem sampleGnuHashFile_holds : sampleGnuHashFile.HoldsGnuHash 120 sampleGnuHash where
  header := ⟨120, by decide +kernel⟩
  buckets _ := ⟨136, by decide +kernel⟩
  chain i hi := ⟨148 + BitVec.ofNat 64 i * 4, by
    revert i
    decide +kernel⟩

theorem elf_gnu_hash_symcount_eq_sample : sampleGnuHashFile.gnuHashSymcount 120 = some 4 :=
  (elf_gnu_hash_symcount_eq sampleGnuHashFile_holds).trans (by decide +kernel)

end Utopia
