/-
A reservation takes its range from the available bytes of any map, and nothing else.
-/
import Utopia.Mm.BootReserve

namespace Utopia

/-- The bytes of the entries of type 1. -/
def availableBytes (map : List MapEntry) : Set Word :=
  { x | ∃ e ∈ map, e.Available ∧ x ∈ e.bytes }

variable {start stop x : Word} {e : MapEntry} {map map' done rest tails : List MapEntry}

theorem mem_availableBytes_append {map₁ map₂ : List MapEntry} :
    x ∈ availableBytes (map₁ ++ map₂) ↔ x ∈ availableBytes map₁ ∨ x ∈ availableBytes map₂ := by
  simp only [availableBytes, Set.mem_ofPred_eq, List.mem_append, or_and_right, exists_or]

theorem cutEntry_of_not_available (h : ¬ e.Available) : cutEntry start stop e = e := if_pos h

/-- A byte of an entry that lies beside the range stays in one of its parts. -/
theorem mem_parts (hfits : e.stop < 2 ^ 64) (havail : e.Available) (hx : x ∈ e.bytes)
    (hout : x ∉ between start.toNat stop.toNat) :
    ((cutEntry start stop e).Available ∧ x ∈ (cutEntry start stop e).bytes) ∨
      ∃ p ∈ secondPart start stop e, p.Available ∧ x ∈ p.bytes := by
  have hend := MapEntry.addr_add_len_toNat hfits
  rw [MapEntry.bytes, mem_between] at hx
  rw [mem_between] at hout
  rw [cutEntry, if_neg (not_not.mpr havail)]
  by_cases hmeets : stop ≤ e.addr ∨ e.addr + e.len ≤ start
  · rw [if_pos hmeets]
    exact Or.inl ⟨havail, hx⟩
  rw [if_neg hmeets]
  by_cases hall : start ≤ e.addr ∧ e.addr + e.len ≤ stop
  · obtain ⟨hstart, hstop⟩ := hall
    rw [BitVec.le_def] at hstart hstop
    omega
  rw [if_neg hall]
  rw [BitVec.le_def, BitVec.le_def, hend] at hmeets hall
  by_cases hfront : start ≤ e.addr
  · rw [if_pos hfront]
    rw [BitVec.le_def] at hfront
    have hsub : (e.addr + e.len - stop).toNat = e.stop - stop.toNat := by
      rw [BitVec.toNat_sub_of_le (by rw [BitVec.le_def, hend]; omega), hend]
    have hafter : stop.toNat ≤ x.toNat := by
      omega
    refine Or.inl ⟨havail, mem_between.mpr ⟨hafter, ?_⟩⟩
    simp only [MapEntry.stop, hsub] at hx ⊢
    omega
  · rw [if_neg hfront]
    have hbefore := BitVec.not_le.mp hfront
    rw [BitVec.le_def] at hfront
    have hsub : (start - e.addr).toNat = start.toNat - e.addr.toNat :=
      BitVec.toNat_sub_of_le (BitVec.le_of_lt hbefore)
    by_cases hlow : x.toNat < start.toNat
    · refine Or.inl ⟨havail, mem_between.mpr ⟨hx.1, ?_⟩⟩
      simp only [MapEntry.stop, hsub]
      omega
    · have hin : StrictlyInside start stop e := by
        refine ⟨havail, hbefore, ?_⟩
        rw [BitVec.lt_def, hend]
        omega
      have hsub' : (e.addr + e.len - stop).toNat = e.stop - stop.toNat := by
        rw [BitVec.toNat_sub_of_le (by rw [BitVec.le_def, hend]; omega), hend]
      have hafter : stop.toNat ≤ x.toNat := by
        omega
      have hsecond : (⟨stop, e.addr + e.len - stop, 1⟩ : MapEntry) ∈ secondPart start stop e := by
        rw [secondPart, if_pos hin]
        exact List.mem_singleton_self _
      refine Or.inr ⟨_, hsecond, show (1 : Word) = 1 from rfl, mem_between.mpr ⟨hafter, ?_⟩⟩
      simp only [MapEntry.stop, hsub'] at hx ⊢
      omega

theorem mem_entry_iff (hlt : start < stop) (hfits : e.Available → e.stop < 2 ^ 64) :
    ((cutEntry start stop e).Available ∧ x ∈ (cutEntry start stop e).bytes) ∨
        (∃ p ∈ secondPart start stop e, p.Available ∧ x ∈ p.bytes) ↔
      e.Available ∧ x ∈ e.bytes ∧ x ∉ between start.toNat stop.toNat := by
  constructor
  · rintro (⟨havail, hx⟩ | ⟨p, hp, havail, hx⟩)
    · obtain ⟨hpart, hbeside⟩ := cutEntry_part hfits havail
      exact ⟨hpart.1, hpart.bytes_subset hx, Set.disjoint_left.mp hbeside.disjoint hx⟩
    · obtain ⟨hpart, hbeside, -⟩ := secondPart_part hlt hfits hp
      exact ⟨hpart.1, hpart.bytes_subset hx, Set.disjoint_left.mp hbeside.disjoint hx⟩
  · rintro ⟨havail, hx, hout⟩
    exact mem_parts (hfits havail) havail hx hout

/-- All entries cut, and the second parts behind them. -/
theorem availableBytes_cut (hlt : start < stop) (hfits : ∀ e ∈ map, e.Available → e.stop < 2 ^ 64) :
    availableBytes (map.map (cutEntry start stop) ++ map.flatMap (secondPart start stop)) =
      availableBytes map \ between start.toNat stop.toNat := by
  ext x
  rw [mem_availableBytes_append, Set.mem_sdiff]
  constructor
  · rintro (⟨p, hp, havail, hx⟩ | ⟨p, hp, havail, hx⟩)
    · obtain ⟨e, he, rfl⟩ := List.mem_map.mp hp
      obtain ⟨havail', hx', hout⟩ := (mem_entry_iff hlt (hfits e he)).mp (Or.inl ⟨havail, hx⟩)
      exact ⟨⟨e, he, havail', hx'⟩, hout⟩
    · obtain ⟨e, he, hp⟩ := List.mem_flatMap.mp hp
      obtain ⟨havail', hx', hout⟩ :=
        (mem_entry_iff hlt (hfits e he)).mp (Or.inr ⟨p, hp, havail, hx⟩)
      exact ⟨⟨e, he, havail', hx'⟩, hout⟩
  · rintro ⟨⟨e, he, havail, hx⟩, hout⟩
    rcases (mem_entry_iff hlt (hfits e he)).mpr ⟨havail, hx, hout⟩ with hcut | ⟨p, hp, hpart⟩
    · exact Or.inl ⟨_, List.mem_map_of_mem he, hcut⟩
    · exact Or.inr ⟨p, List.mem_flatMap.mpr ⟨e, he, hp⟩, hpart⟩

/-! ### The loop -/

/-- A round appends only where there is a slot. -/
theorem reserveEntry_length {i : ℕ} (hlength : map.length ≤ mapSlots) :
    (reserveEntry start stop map i e).2.length ≤ mapSlots := by
  simp only [reserveEntry]
  split_ifs <;> simp only [List.length_append, List.length_set, List.length_singleton] <;> omega

theorem reserveLoop_length {slots i : ℕ} (hlength : map.length ≤ mapSlots) :
    (reserveLoop start stop slots i map).2.length ≤ mapSlots := by
  induction slots generalizing i map with
  | zero => exact hlength
  | succ slots ih =>
      rw [reserveLoop]
      cases hi : map[i]? with
      | none => exact hlength
      | some e =>
          have hround : (reserveEntry start stop map i e).2.length ≤ mapSlots :=
            reserveEntry_length hlength
          dsimp only
          split_ifs
          · exact ih hround
          · exact hround

/-- The loop ends when it has come to the last of the slots, also when it appends. -/
theorem reserveLoop_ends {slots slots' i : ℕ} (hlength : map.length ≤ mapSlots)
    (hslots : mapSlots ≤ i + slots) (hslots' : mapSlots ≤ i + slots') :
    reserveLoop start stop slots i map = reserveLoop start stop slots' i map := by
  induction slots generalizing i map slots' with
  | zero =>
      have hi : map[i]? = none := List.getElem?_eq_none (by omega)
      cases slots' with
      | zero => rfl
      | succ slots' => rw [reserveLoop, reserveLoop, hi]
  | succ slots ih =>
      cases slots' with
      | zero =>
          have hi : map[i]? = none := List.getElem?_eq_none (by omega)
          rw [reserveLoop, reserveLoop, hi]
      | succ slots' =>
          rw [reserveLoop, reserveLoop]
          cases hi : map[i]? with
          | none => rfl
          | some e =>
              dsimp only
              split_ifs
              · exact ih (reserveEntry_length hlength) (by omega) (by omega)
              · rfl

/-- A loop that ends with 0 has cut every entry and found a slot for every second part. -/
theorem eq_of_reserveLoop_zero (hlt : start < stop) (done rest tails : List MapEntry) {slots : ℕ}
    (hslots : mapSlots ≤ done.length + slots)
    (hlength : (done ++ rest ++ tails).length ≤ mapSlots)
    (htails : ∀ e ∈ tails, Clear start stop e)
    (h : reserveLoop start stop slots done.length (done ++ rest ++ tails) = (0, map')) :
    map' = done ++ rest.map (cutEntry start stop) ++ tails ++
      rest.flatMap (secondPart start stop) := by
  induction rest generalizing done tails slots with
  | nil =>
      rw [List.append_nil] at h
      rw [reserveLoop_clear slots fun j e hj he => ?_] at h
      · rw [← (Prod.mk.inj h).2]
        simp
      · rw [List.getElem?_append_right hj] at he
        exact htails e (List.mem_of_getElem? he)
  | cons e rest ih =>
      simp only [List.length_append, List.length_cons] at hlength
      obtain ⟨slots, rfl⟩ : ∃ n, slots = n + 1 := Nat.exists_eq_succ_of_ne_zero (by omega)
      have hi : (done ++ e :: rest ++ tails)[done.length]? = some e := by simp
      have hset : (done ++ e :: rest ++ tails).set done.length (cutEntry start stop e) =
          done ++ [cutEntry start stop e] ++ rest ++ tails := by
        simp
      rw [reserveLoop, hi] at h
      simp only [reserveEntry_eq hlt hi, hset] at h
      by_cases hfull : StrictlyInside start stop e ∧
          mapSlots ≤ (done ++ e :: rest ++ tails).length
      · rw [if_pos hfull] at h
        cases h
      · rw [if_neg hfull, if_pos rfl, List.append_assoc _ tails] at h
        have hroom : (secondPart start stop e).length + (done.length + (rest.length + 1) +
            tails.length) ≤ mapSlots := by
          rw [secondPart]
          split_ifs with hin
          · simp only [List.length_append, List.length_cons, hin, true_and] at hfull
            rw [List.length_singleton]
            omega
          · rw [List.length_nil]
            omega
        have hslots' : mapSlots ≤ (done ++ [cutEntry start stop e]).length + slots := by
          rw [List.length_append, List.length_singleton]
          omega
        have hnext := ih (done ++ [cutEntry start stop e]) (tails ++ secondPart start stop e)
          hslots' (by simp only [List.length_append, List.length_singleton]; omega)
          (fun x hx => (List.mem_append.mp hx).elim (htails x) clear_of_mem_secondPart)
          (by rw [List.length_append, List.length_singleton]; exact h)
        rw [hnext]
        simp

/-- For any map of at most 64 entries of which no available one wraps: the loop ends, the count
stays within the table, and a reservation that returns 0 is a set difference. -/
theorem memoryReserveRange_difference (hslots : map.length ≤ mapSlots)
    (hfits : ∀ e ∈ map, e.Available → e.stop < 2 ^ 64) (start stop : Word) :
    (∀ slots, mapSlots ≤ slots →
      reserveLoop start stop slots 0 map = reserveLoop start stop mapSlots 0 map) ∧
    (memoryReserveRange map start stop).2.length ≤ mapSlots ∧
    ((memoryReserveRange map start stop).1 = 0 →
      availableBytes (memoryReserveRange map start stop).2 =
          availableBytes map \ between start.toNat stop.toNat ∧
        ∀ (i : ℕ) (e : MapEntry), map[i]? = some e → ¬ e.Available →
          (memoryReserveRange map start stop).2[i]? = some e) := by
  refine ⟨fun slots hle => reserveLoop_ends hslots (by omega) (by omega), ?_, fun hzero => ?_⟩
  · rw [memoryReserveRange]
    split_ifs
    · exact hslots
    · exact reserveLoop_length hslots
  · rw [memoryReserveRange] at hzero ⊢
    by_cases hle : stop ≤ start
    · rw [if_pos hle]
      have hempty : between start.toNat stop.toNat = ∅ := by
        rw [BitVec.le_def] at hle
        ext x
        rw [mem_between, Set.mem_empty_iff_false, iff_false]
        omega
      rw [hempty, Set.sdiff_empty]
      exact ⟨rfl, fun i e he _ => he⟩
    · have hlt := BitVec.not_le.mp hle
      rw [if_neg hle] at hzero ⊢
      generalize hloop : reserveLoop start stop mapSlots 0 map = result at hzero ⊢
      obtain ⟨status, map'⟩ := result
      obtain rfl : status = 0 := hzero
      have hall : mapSlots ≤ ([] : List MapEntry).length + mapSlots := Nat.le_add_left _ _
      have hmap := eq_of_reserveLoop_zero hlt [] map [] hall (by simpa using hslots)
        (fun e he => absurd he List.not_mem_nil) (by simpa using hloop)
      rw [List.nil_append, List.append_nil] at hmap
      subst hmap
      refine ⟨availableBytes_cut hlt hfits, fun i e he hno => ?_⟩
      obtain ⟨hi, -⟩ := List.getElem?_eq_some_iff.mp he
      rw [List.getElem?_append_left (by rw [List.length_map]; exact hi), List.getElem?_map, he,
        Option.map_some, cutEntry_of_not_available hno]

/-- Two overlapping entries, both of which the range splits. -/
theorem memoryReserveRange_difference_overlapping :
    availableBytes (memoryReserveRange [⟨0x1000, 0x9000, 1⟩, ⟨0x2000, 0x9000, 1⟩] 0x4000 0x5000).2 =
      availableBytes [⟨0x1000, 0x9000, 1⟩, ⟨0x2000, 0x9000, 1⟩] \ between 0x4000 0x5000 :=
  ((memoryReserveRange_difference (by decide) (by decide) 0x4000 0x5000).2.2 (by decide)).1

end Utopia
