/-
What the modules leave of the usable memory that the bootloader reports, read off its entries
and the ranges of the modules: the map when `memory_init` runs has these regions.
-/
import Utopia.Lib.Regions
import Utopia.Mm.ReserveDifference

namespace Utopia

instance (b : Bootloader) (e : BootEntry) : Decidable (b.Usable e) := by
  cases b <;> exact inferInstanceAs (Decidable (_ = _))

namespace BootLayout

variable (k : BootLayout)

/-- The slots of the map that stay free, and the usable regions.  Without a map from the
bootloader, the region lies at the virtual address behind the kernel. -/
def reported : Option (List BootEntry) → ℕ × List (Word × Word)
  | none => (mapSlots - 1, [(k.kernelEnd, 128 * 1024 * 1024 - sizeofHeapBlock)])
  | some entries =>
      (mapSlots - entries.length,
        ((entries.take mapSlots).filter (k.bootloader.Usable ·)).map fun e => (e.base, e.length))

/-- The regions without the range of a module. -/
def withoutModule (m : ℕ × List (Word × Word)) : Option BootModule → ℕ × List (Word × Word)
  | none => m
  | some mod =>
      without (k.hhdmVirtToPhys mod.addr) (k.hhdmVirtToPhys mod.addr + mod.size) m

/-- The free slots and the regions that the two modules leave. -/
def leftOver (entries : Option (List BootEntry)) (initramfs font : Option BootModule) :
    ℕ × List (Word × Word) :=
  k.withoutModule (k.withoutModule (k.reported entries) initramfs) font

end BootLayout

/-! ### The regions of a map -/

/-- The available entries, by base and size. -/
def freeRegions (map : List MapEntry) : List (Word × Word) :=
  (map.filter (MapEntry.Available ·)).map fun e => (e.addr, e.len)

/-- The free slots of a map, and its regions. -/
def mapView (map : List MapEntry) : ℕ × List (Word × Word) :=
  (mapSlots - map.length, freeRegions map)

variable {start stop : Word} {e : MapEntry} {map : List MapEntry} {r : Word × Word}

@[simp]
theorem freeRegions_nil : freeRegions [] = [] := rfl

@[simp]
theorem freeRegions_append (map map' : List MapEntry) :
    freeRegions (map ++ map') = freeRegions map ++ freeRegions map' := by
  rw [freeRegions, List.filter_append, List.map_append]
  rfl

theorem freeRegions_cons (e : MapEntry) (map : List MapEntry) :
    freeRegions (e :: map) = freeRegions [e] ++ freeRegions map :=
  freeRegions_append [e] map

theorem freeRegions_singleton (h : e.Available) : freeRegions [e] = [(e.addr, e.len)] := by
  simp [freeRegions, h]

theorem freeRegions_of_not_available (h : ¬ e.Available) : freeRegions [e] = [] := by
  simp [freeRegions, h]

theorem mem_freeRegions : r ∈ freeRegions map ↔ ∃ e ∈ map, e.Available ∧ (e.addr, e.len) = r := by
  simp [freeRegions, and_assoc]

theorem largestFree_eq (map : List MapEntry) :
    largestFree map = firstLongest (freeRegions map) := by
  induction map using List.reverseRecOn with
  | nil => rfl
  | append_singleton map e ih =>
      have hlast : largestFree (map ++ [e]) =
          if e.Available ∧ (largestFree map).2 < e.len then (e.addr, e.len)
          else largestFree map := by
        rw [largestFree, List.foldl_append]
        rfl
      rw [hlast, freeRegions_append]
      by_cases he : e.Available
      · rw [freeRegions_singleton he, firstLongest_append, ← ih]
        simp [he]
      · rw [freeRegions_of_not_available he, List.append_nil, ← ih, if_neg fun h => he h.1]

/-! ### Reservations -/

theorem freeRegions_cutEntry (he : e.Available) :
    freeRegions [cutEntry start stop e] = keptPart start stop (e.addr, e.len) := by
  have hsame (addr len : Word) : freeRegions [{ e with addr := addr, len := len }] =
      [(addr, len)] := freeRegions_singleton he
  rw [cutEntry, if_neg (not_not.mpr he), keptPart]
  dsimp only
  by_cases hclear : stop ≤ e.addr ∨ e.addr + e.len ≤ start
  · rw [if_pos hclear, if_pos hclear, freeRegions_singleton he]
  · rw [if_neg hclear, if_neg hclear]
    by_cases hfront : start ≤ e.addr
    · rw [if_neg (BitVec.not_lt.mpr hfront)]
      by_cases hback : e.addr + e.len ≤ stop
      · have hreserved : ¬ ({ e with type := 2 } : MapEntry).Available := by
          intro h
          exact absurd (show (2 : Word) = 1 from h) (by decide)
        rw [if_pos ⟨hfront, hback⟩, if_neg (BitVec.not_lt.mpr hback),
          freeRegions_of_not_available hreserved]
      · rw [if_neg fun h => hback h.2, if_pos hfront, if_pos (BitVec.not_le.mp hback)]
        exact hsame _ _
    · rw [if_neg fun h => hfront h.1, if_neg hfront, if_pos (BitVec.not_le.mp hfront)]
      exact hsame _ _

theorem freeRegions_cutEntry_of_not_available (he : ¬ e.Available) :
    freeRegions [cutEntry start stop e] = [] := by
  rw [cutEntry_of_not_available he, freeRegions_of_not_available he]

theorem keptPart_of_splits (hlt : start < stop) (h : Splits start stop r) :
    keptPart start stop r = [(r.1, start - r.1)] := by
  obtain ⟨hstart, hstop⟩ := h
  have hmeets : ¬ (stop ≤ r.1 ∨ r.1 + r.2 ≤ start) := by
    rw [BitVec.lt_def] at hlt hstart hstop
    rw [BitVec.le_def, BitVec.le_def]
    omega
  rw [keptPart, if_neg hmeets, if_pos hstart]

theorem refused_iff_noPlace : Refused start stop map ↔ NoPlace start stop (mapView map) := by
  have hfull : mapSlots ≤ map.length ↔ (mapView map).1 = 0 := Nat.sub_eq_zero_iff_le.symm
  have hsplit : (∃ e ∈ map, StrictlyInside start stop e) ↔
      ∃ r ∈ (mapView map).2, Splits start stop r := by
    constructor
    · rintro ⟨e, he, havail, hin⟩
      exact ⟨_, mem_freeRegions.mpr ⟨e, he, havail, rfl⟩, hin⟩
    · rintro ⟨r, hr, hin⟩
      obtain ⟨e, he, havail, rfl⟩ := mem_freeRegions.mp hr
      exact ⟨e, he, havail, hin⟩
  rw [Refused, NoPlace, hfull, hsplit]

/-- One entry more: where the range splits it, one of the free slots is used. -/
theorem takeOut_freeRegions_cons (hlt : start < stop) {free : ℕ}
    {rest rest' seconds : List MapEntry} (hroom : StrictlyInside start stop e → 0 < free)
    (hout : takeOut start stop (free - (secondPart start stop e).length) (freeRegions rest) =
      (freeRegions rest', freeRegions seconds)) :
    takeOut start stop free (freeRegions (e :: rest)) =
      (freeRegions (cutEntry start stop e :: rest'),
        freeRegions (secondPart start stop e ++ seconds)) := by
  rw [freeRegions_cons e, freeRegions_cons (cutEntry start stop e), freeRegions_append]
  by_cases hin : StrictlyInside start stop e
  · have hsplits : Splits start stop (e.addr, e.len) := hin.2
    have hsecond : freeRegions (secondPart start stop e) = [(stop, e.addr + e.len - stop)] := by
      rw [secondPart, if_pos hin]
      rfl
    obtain ⟨n, rfl⟩ := Nat.exists_eq_succ_of_ne_zero (Nat.ne_of_gt (hroom hin))
    rw [secondPart, if_pos hin, List.length_singleton, Nat.succ_sub_one] at hout
    rw [freeRegions_singleton hin.1, freeRegions_cutEntry hin.1, List.singleton_append,
      takeOut_cons_split n hsplits, keptPart_of_splits hlt hsplits, hsecond, hout]
    rfl
  · have hnone : secondPart start stop e = [] := if_neg hin
    rw [hnone, List.length_nil, Nat.sub_zero] at hout
    rw [hnone, freeRegions_nil, List.nil_append]
    by_cases he : e.Available
    · have hsplits : ¬ Splits start stop (e.addr, e.len) := fun h => hin ⟨he, h⟩
      rw [freeRegions_singleton he, freeRegions_cutEntry he, List.singleton_append,
        takeOut_cons_of_not_splits _ hsplits, hout]
    · rw [freeRegions_of_not_available he, freeRegions_cutEntry_of_not_available he]
      exact hout

/-- The loop takes the range out of the regions, as long as it finds a slot for each second
part. -/
theorem reserveLoop_regions (hlt : start < stop) (done rest tails : List MapEntry) {slots : ℕ}
    (hslots : mapSlots ≤ done.length + slots)
    (hlength : (done ++ rest ++ tails).length ≤ mapSlots)
    (htails : ∀ e ∈ tails, Clear start stop e) :
    ∃ rest' seconds, (reserveLoop start stop slots done.length (done ++ rest ++ tails)).2 =
        done ++ rest' ++ tails ++ seconds ∧
      rest'.length = rest.length ∧ seconds.length = (freeRegions seconds).length ∧
      takeOut start stop (mapSlots - (done ++ rest ++ tails).length) (freeRegions rest) =
        (freeRegions rest', freeRegions seconds) := by
  induction rest generalizing done tails slots with
  | nil =>
      refine ⟨[], [], ?_, rfl, rfl, ?_⟩
      · rw [List.append_nil, reserveLoop_clear slots fun j e hj he => ?_]
        · simp
        · rw [List.getElem?_append_right hj] at he
          exact htails e (List.mem_of_getElem? he)
      · cases mapSlots - (done ++ [] ++ tails).length <;> rfl
  | cons e rest ih =>
      simp only [List.length_append, List.length_cons] at hlength
      obtain ⟨slots, rfl⟩ : ∃ n, slots = n + 1 := Nat.exists_eq_succ_of_ne_zero (by omega)
      have hi : (done ++ e :: rest ++ tails)[done.length]? = some e := by simp
      have hset : (done ++ e :: rest ++ tails).set done.length (cutEntry start stop e) =
          done ++ [cutEntry start stop e] ++ rest ++ tails := by
        simp
      rw [reserveLoop, hi]
      simp only [reserveEntry_eq hlt hi, hset]
      by_cases hfull : StrictlyInside start stop e ∧
          mapSlots ≤ (done ++ e :: rest ++ tails).length
      · -- no slot for the second part
        have hsplits : Splits start stop (e.addr, e.len) := hfull.1.2
        rw [if_pos hfull]
        refine ⟨e :: rest, [], by simp, rfl, rfl, ?_⟩
        rw [Nat.sub_eq_zero_of_le hfull.2, freeRegions_cons, freeRegions_singleton hfull.1.1,
          List.singleton_append, takeOut_cons_full hsplits]
        rfl
      · rw [if_neg hfull, if_pos rfl, List.append_assoc _ tails]
        have hfree : StrictlyInside start stop e →
            0 < mapSlots - (done ++ e :: rest ++ tails).length := fun hin =>
          Nat.sub_pos_of_lt (not_le.mp fun hlen => hfull ⟨hin, hlen⟩)
        have hroom : (secondPart start stop e).length + (done.length + (rest.length + 1) +
            tails.length) ≤ mapSlots := by
          rw [secondPart]
          split_ifs with hin
          · have hpos := hfree hin
            simp only [List.length_append, List.length_cons] at hpos
            rw [List.length_singleton]
            omega
          · rw [List.length_nil]
            omega
        obtain ⟨rest', seconds, hloop, hlen', hseconds, hout⟩ :=
          @ih (done ++ [cutEntry start stop e]) (tails ++ secondPart start stop e) slots
            (by rw [List.length_append, List.length_singleton]; omega)
            (by simp only [List.length_append, List.length_singleton]; omega)
            (fun x hx => (List.mem_append.mp hx).elim (htails x) clear_of_mem_secondPart)
        have hslot : mapSlots - (done ++ [cutEntry start stop e] ++ rest ++
            (tails ++ secondPart start stop e)).length =
            mapSlots - (done ++ e :: rest ++ tails).length - (secondPart start stop e).length := by
          simp only [List.length_append, List.length_cons, List.length_nil]
          omega
        rw [hslot] at hout
        rw [List.length_append, List.length_singleton] at hloop
        refine ⟨cutEntry start stop e :: rest', secondPart start stop e ++ seconds, ?_, ?_, ?_,
          takeOut_freeRegions_cons hlt hfree hout⟩
        · rw [hloop]
          simp
        · rw [List.length_cons, List.length_cons, hlen']
        · rw [freeRegions_append, List.length_append, List.length_append, hseconds, secondPart]
          split_ifs <;> rfl

/-- A reservation takes its range out of the regions of the map. -/
theorem mapView_memoryReserveRange (hslots : map.length ≤ mapSlots) (start stop : Word) :
    (memoryReserveRange map start stop).2.length ≤ mapSlots ∧
      mapView (memoryReserveRange map start stop).2 = without start stop (mapView map) := by
  by_cases hlt : start < stop
  · obtain ⟨rest, seconds, hloop, hlen, hseconds, hout⟩ :=
      @reserveLoop_regions start stop hlt [] map [] mapSlots (Nat.le_add_left _ _)
        (by simpa using hslots) (fun e he => absurd he List.not_mem_nil)
    rw [List.nil_append, List.append_nil] at hloop hout
    have hshort : (reserveLoop start stop mapSlots 0 map).2.length ≤ mapSlots :=
      reserveLoop_length hslots
    rw [List.length_nil] at hloop
    rw [memoryReserveRange, if_neg (BitVec.not_le.mpr hlt)]
    refine ⟨hshort, ?_⟩
    rw [hloop, without, if_pos hlt, mapView, mapView, hout, List.nil_append, List.append_nil,
      freeRegions_append, List.length_append, hlen, ← hseconds, Nat.sub_sub]
  · rw [memoryReserveRange, if_pos (BitVec.not_lt.mp hlt), without, if_neg hlt]
    exact ⟨hslots, rfl⟩

/-! ### The map at boot -/

namespace BootLayout

variable {k : BootLayout}

theorem mapEntry_available (b : Bootloader) (e : BootEntry) :
    (b.mapEntry e).Available ↔ b.Usable e := by
  cases b with
  | grub => rfl
  | limine =>
      change Bootloader.limine.entryType e.type = 1 ↔ e.type = 0
      rw [Bootloader.entryType]
      split_ifs with h <;> simp_all

theorem mapView_memoryInitBase (entries : Option (List BootEntry)) :
    (k.memoryInitBase entries).length ≤ mapSlots ∧
      mapView (k.memoryInitBase entries) = k.reported entries := by
  cases entries with
  | none => exact ⟨show 1 ≤ mapSlots by decide, rfl⟩
  | some entries =>
      have hregions (list : List BootEntry) : freeRegions (list.map k.bootloader.mapEntry) =
          (list.filter (k.bootloader.Usable ·)).map fun e => (e.base, e.length) := by
        induction list with
        | nil => rfl
        | cons e list ih =>
            rw [List.map_cons, freeRegions_cons, ih]
            by_cases he : k.bootloader.Usable e
            · rw [freeRegions_singleton ((mapEntry_available _ e).mpr he),
                List.filter_cons, if_pos (decide_eq_true he)]
              rfl
            · rw [freeRegions_of_not_available fun h => he ((mapEntry_available _ e).mp h),
                List.filter_cons, if_neg (by simpa using he)]
              rfl
      rw [memoryInitBase, List.length_map, mapView, hregions, List.length_map, reported,
        List.length_take]
      exact ⟨Nat.min_le_left _ _, by rw [show mapSlots - min mapSlots entries.length =
        mapSlots - entries.length by omega]⟩

theorem mapView_reserveModule (hslots : map.length ≤ mapSlots) (mod : Option BootModule) :
    (k.reserveModule map mod).length ≤ mapSlots ∧
      mapView (k.reserveModule map mod) = k.withoutModule (mapView map) mod := by
  cases mod with
  | none => exact ⟨hslots, rfl⟩
  | some mod => exact mapView_memoryReserveRange hslots _ _

/-- When `memory_init` runs, the map has the regions that the modules leave of what the
bootloader reports. -/
theorem mapView_bootMap (entries : Option (List BootEntry)) (initramfs font : Option BootModule) :
    mapView (k.bootMap entries initramfs font) = k.leftOver entries initramfs font := by
  obtain ⟨hbase, hreported⟩ := mapView_memoryInitBase (k := k) entries
  obtain ⟨hfirst, hinitramfs⟩ := mapView_reserveModule (k := k) hbase initramfs
  obtain ⟨-, hfont⟩ := mapView_reserveModule (k := k) hfirst font
  rw [bootMap, hfont, hinitramfs, hreported, leftOver]

end BootLayout

end Utopia
