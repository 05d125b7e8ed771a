/-
What `memory_reserve_range` leaves of the memory map.
-/
import Mathlib.Data.List.Pairwise
import Utopia.Mm.BootMap

namespace Utopia

/-- The part of an entry that stays in its slot. -/
def cutEntry (start stop : Word) (e : MapEntry) : MapEntry :=
  if ¬ e.Available then e
  else if stop ≤ e.addr ∨ e.addr + e.len ≤ start then e
  else if start ≤ e.addr ∧ e.addr + e.len ≤ stop then { e with type := 2 }
  else if start ≤ e.addr then { e with addr := stop, len := e.addr + e.len - stop }
  else { e with len := start - e.addr }

/-- The range to reserve lies strictly inside an available entry, so that two parts of
the entry remain. -/
def StrictlyInside (start stop : Word) (e : MapEntry) : Prop :=
  e.Available ∧ e.addr < start ∧ stop < e.addr + e.len

instance (start stop : Word) (e : MapEntry) : Decidable (StrictlyInside start stop e) :=
  inferInstanceAs (Decidable (_ ∧ _))

/-- The part of an entry that needs a new slot. -/
def secondPart (start stop : Word) (e : MapEntry) : List MapEntry :=
  if StrictlyInside start stop e then [⟨stop, e.addr + e.len - stop, 1⟩] else []

/-- The loop has nothing to do for the entry. -/
def Clear (start stop : Word) (e : MapEntry) : Prop :=
  ¬ e.Available ∨ stop ≤ e.addr ∨ e.addr + e.len ≤ start

variable {start stop : Word} {e : MapEntry} {map done rest tails : List MapEntry} {i : ℕ}

theorem cutEntry_of_clear (h : Clear start stop e) : cutEntry start stop e = e := by
  rw [cutEntry]
  by_cases havail : e.Available
  · rw [if_neg (not_not.mpr havail), if_pos (h.resolve_left (not_not.mpr havail))]
  · rw [if_pos havail]

theorem not_strictlyInside_of_clear (hlt : start < stop) (h : Clear start stop e) :
    ¬ StrictlyInside start stop e := by
  rintro ⟨havail, hstart, hstop⟩
  rw [BitVec.lt_def] at hlt hstart hstop
  rcases h with hno | hafter | hbefore
  · exact hno havail
  · rw [BitVec.le_def] at hafter
    omega
  · rw [BitVec.le_def] at hbefore
    omega

theorem secondPart_of_clear (hlt : start < stop) (h : Clear start stop e) :
    secondPart start stop e = [] :=
  if_neg (not_strictlyInside_of_clear hlt h)

theorem clear_of_mem_secondPart {x : MapEntry} (h : x ∈ secondPart start stop e) :
    Clear start stop x := by
  rw [secondPart] at h
  split_ifs at h
  · obtain rfl := List.mem_singleton.mp h
    exact Or.inr (Or.inl (BitVec.le_refl _))
  · cases h

theorem reserveEntry_of_clear (h : Clear start stop e) :
    reserveEntry start stop map i e = (0, map) := by
  rw [reserveEntry]
  by_cases havail : e.Available
  · rw [if_neg (not_not.mpr havail)]
    exact if_pos (h.resolve_left (not_not.mpr havail))
  · rw [if_pos havail]

/-- One round: refused when a second part finds no slot. -/
theorem reserveEntry_eq (hlt : start < stop) (hi : map[i]? = some e) :
    reserveEntry start stop map i e =
      if StrictlyInside start stop e ∧ mapSlots ≤ map.length then (-1, map)
      else (0, map.set i (cutEntry start stop e) ++ secondPart start stop e) := by
  have hsame : map.set i e = map := by
    obtain ⟨hlen, rfl⟩ := List.getElem?_eq_some_iff.mp hi
    exact List.set_getElem_self hlen
  by_cases hclear : Clear start stop e
  · rw [reserveEntry_of_clear hclear, if_neg fun h => not_strictlyInside_of_clear hlt hclear h.1,
      cutEntry_of_clear hclear, secondPart_of_clear hlt hclear, hsame, List.append_nil]
  · simp only [Clear, not_or, not_not] at hclear
    obtain ⟨havail, hmeets⟩ := hclear
    have hmeets' : ¬ (stop ≤ e.addr ∨ e.addr + e.len ≤ start) := not_or.mpr hmeets
    simp only [reserveEntry, cutEntry, if_neg (not_not.mpr havail), if_neg hmeets']
    by_cases hstart : start ≤ e.addr
    · have hnot : ¬ StrictlyInside start stop e := fun h => BitVec.not_lt.mpr hstart h.2.1
      simp only [hnot, secondPart, false_and, if_false, List.append_nil]
      by_cases hstop : e.addr + e.len ≤ stop
      · simp only [hstart, hstop, and_self, if_true]
      · simp only [hstart, hstop, BitVec.not_le.mp hstop, and_self, and_false, if_true, if_false]
    · by_cases hstop : e.addr + e.len ≤ stop
      · have hnot : ¬ StrictlyInside start stop e := fun h => BitVec.not_lt.mpr hstop h.2.2
        simp only [hnot, secondPart, hstart, hstop, BitVec.not_le.mp hstart, and_self, false_and,
          if_true, if_false, List.append_nil]
      · have hin : StrictlyInside start stop e := ⟨havail, BitVec.not_le.mp hstart, BitVec.not_le.mp hstop⟩
        simp only [hstart, hstop, hin, secondPart, false_and, and_false, true_and, if_true,
          if_false]

/-- Entries that are clear are passed over. -/
theorem reserveLoop_clear (slots : ℕ)
    (hclear : ∀ j e, i ≤ j → map[j]? = some e → Clear start stop e) :
    reserveLoop start stop slots i map = (0, map) := by
  induction slots generalizing i with
  | zero => rfl
  | succ slots ih =>
      rw [reserveLoop]
      cases hi : map[i]? with
      | none => rfl
      | some e =>
          simp only [reserveEntry_of_clear (hclear i e le_rfl hi), if_true]
          exact ih fun j e hj => hclear j e (by omega)

/-- With a slot for every second part, the loop cuts every entry and appends the second
parts. -/
theorem reserveLoop_eq (hlt : start < stop) (done rest tails : List MapEntry) {slots : ℕ}
    (hslots : done.length + slots = mapSlots)
    (hroom : done.length + rest.length + tails.length +
      (rest.flatMap (secondPart start stop)).length ≤ mapSlots)
    (htails : ∀ e ∈ tails, Clear start stop e) :
    reserveLoop start stop slots done.length (done ++ rest ++ tails) =
      (0, done ++ rest.map (cutEntry start stop) ++ tails ++
        rest.flatMap (secondPart start stop)) := by
  induction rest generalizing done tails slots with
  | nil =>
      rw [List.append_nil]
      rw [reserveLoop_clear slots fun j e hj he => ?_]
      · simp
      · rw [List.getElem?_append_right hj] at he
        exact htails e (List.mem_of_getElem? he)
  | cons e rest ih =>
      cases slots with
      | zero =>
          simp only [List.length_cons] at hroom
          omega
      | succ slots =>
          have hi : (done ++ e :: rest ++ tails)[done.length]? = some e := by simp
          have hset : (done ++ e :: rest ++ tails).set done.length (cutEntry start stop e) =
              done ++ [cutEntry start stop e] ++ rest ++ tails := by
            simp
          have hcan : ¬ (StrictlyInside start stop e ∧
              mapSlots ≤ (done ++ e :: rest ++ tails).length) := by
            rintro ⟨hin, hfull⟩
            rw [List.flatMap_cons, List.length_append, secondPart, if_pos hin] at hroom
            simp only [List.length_append, List.length_cons, List.length_nil] at hroom hfull
            omega
          have hround : reserveEntry start stop (done ++ e :: rest ++ tails) done.length e =
              (0, done ++ [cutEntry start stop e] ++ rest ++ tails ++
                secondPart start stop e) := by
            rw [reserveEntry_eq hlt hi, if_neg hcan, hset]
          rw [reserveLoop, hi]
          simp only [hround, if_true]
          have hnext := @ih (done ++ [cutEntry start stop e]) (tails ++ secondPart start stop e)
            slots
          simp only [List.length_append, List.length_cons, List.length_nil, List.flatMap_cons]
            at hnext hroom
          rw [List.append_assoc _ tails, hnext (by omega) (by omega) ?_]
          · simp
          · intro x hx
            rcases List.mem_append.mp hx with hold | hnew
            · exact htails x hold
            · exact clear_of_mem_secondPart hnew

/-- A full map in which the range lies strictly inside an entry refuses the reservation
when it comes there. -/
theorem reserveLoop_refused (hlt : start < stop) (done : List MapEntry)
    {before after : List MapEntry} (hfull : mapSlots ≤ (done ++ before ++ e :: after).length)
    (hin : StrictlyInside start stop e)
    (hbefore : ∀ x ∈ before, ¬ StrictlyInside start stop x)
    {slots : ℕ} (hslots : before.length < slots) :
    reserveLoop start stop slots done.length (done ++ before ++ e :: after) =
      (-1, done ++ before.map (cutEntry start stop) ++ e :: after) := by
  induction before generalizing done slots with
  | nil =>
      obtain ⟨slots, rfl⟩ : ∃ n, slots = n + 1 := Nat.exists_eq_succ_of_ne_zero (by omega)
      have hi : (done ++ [] ++ e :: after)[done.length]? = some e := by simp
      have hround : reserveEntry start stop (done ++ [] ++ e :: after) done.length e =
          (-1, done ++ [] ++ e :: after) := by
        rw [reserveEntry_eq hlt hi, if_pos ⟨hin, hfull⟩]
      rw [reserveLoop, hi]
      simp only [hround]
      rfl
  | cons x before ih =>
      rw [List.length_cons] at hslots
      obtain ⟨slots, rfl⟩ : ∃ n, slots = n + 1 := Nat.exists_eq_succ_of_ne_zero (by omega)
      have hx := hbefore x List.mem_cons_self
      have hi : (done ++ x :: before ++ e :: after)[done.length]? = some x := by simp
      have hround : reserveEntry start stop (done ++ x :: before ++ e :: after) done.length x =
          (0, done ++ [cutEntry start stop x] ++ before ++ e :: after) := by
        rw [reserveEntry_eq hlt hi, if_neg fun h => hx h.1, secondPart, if_neg hx]
        simp
      have hnext := @ih (done ++ [cutEntry start stop x]) (by simpa using hfull)
        (fun y hy => hbefore y (List.mem_cons_of_mem x hy)) slots (by omega)
      rw [reserveLoop, hi]
      simp only [hround, if_true]
      rw [List.length_append, List.length_singleton] at hnext
      rw [hnext]
      simp

/-! ### Tidy maps -/

def MapEntry.Apart (e e' : MapEntry) : Prop :=
  e.Available → e'.Available → Disjoint e.bytes e'.bytes

/-- A map that fits into its table, with available entries that do not wrap and do not
overlap. -/
structure MapTidy (map : List MapEntry) : Prop where
  slots : map.length ≤ mapSlots
  fits : ∀ e ∈ map, e.Available → e.stop < 2 ^ 64
  apart : map.Pairwise MapEntry.Apart

/-- `p` lies inside the available entry `e`. -/
def PartOf (e p : MapEntry) : Prop :=
  e.Available ∧ e.addr.toNat ≤ p.addr.toNat ∧ p.stop ≤ e.stop

/-- `p` lies on one side of the range. -/
def Beside (start stop : Word) (p : MapEntry) : Prop :=
  p.stop ≤ start.toNat ∨ stop.toNat ≤ p.addr.toNat

theorem MapEntry.addr_add_len_toNat (hfits : e.stop < 2 ^ 64) :
    (e.addr + e.len).toNat = e.stop :=
  toNat_add_of_lt hfits

theorem PartOf.bytes_subset {p : MapEntry} (h : PartOf e p) : p.bytes ⊆ e.bytes := by
  intro x hx
  rw [MapEntry.bytes, mem_between] at hx ⊢
  have := h.2
  omega

theorem Beside.disjoint {p : MapEntry} (h : Beside start stop p) :
    Disjoint p.bytes (between start.toNat stop.toNat) := by
  rw [Set.disjoint_left]
  intro x hx hrange
  rw [MapEntry.bytes, mem_between] at hx
  rw [mem_between] at hrange
  rw [Beside] at h
  omega

theorem cutEntry_of_strictlyInside (hlt : start < stop) (h : StrictlyInside start stop e) :
    cutEntry start stop e = { e with len := start - e.addr } := by
  obtain ⟨havail, hstart, hstop⟩ := h
  have hmeets : ¬ (stop ≤ e.addr ∨ e.addr + e.len ≤ start) := by
    rw [BitVec.lt_def] at hlt hstart hstop
    rw [BitVec.le_def, BitVec.le_def]
    omega
  rw [cutEntry, if_neg (not_not.mpr havail), if_neg hmeets,
    if_neg fun h => BitVec.not_lt.mpr h.1 hstart, if_neg (BitVec.not_le.mpr hstart)]

theorem cutEntry_part (hfits : e.Available → e.stop < 2 ^ 64)
    (havail : (cutEntry start stop e).Available) :
    PartOf e (cutEntry start stop e) ∧ Beside start stop (cutEntry start stop e) := by
  rw [cutEntry] at havail ⊢
  by_cases he : e.Available
  · have hend := MapEntry.addr_add_len_toNat (hfits he)
    have hstop : e.stop < 2 ^ 64 := hfits he
    rw [if_neg (not_not.mpr he)] at havail ⊢
    rw [PartOf, Beside]
    by_cases hmeets : stop ≤ e.addr ∨ e.addr + e.len ≤ start
    · rw [if_pos hmeets] at havail ⊢
      rw [BitVec.le_def, BitVec.le_def, hend] at hmeets
      exact ⟨⟨he, le_rfl, le_rfl⟩, hmeets.symm⟩
    · rw [if_neg hmeets] at havail ⊢
      rw [BitVec.le_def, BitVec.le_def, hend] at hmeets
      by_cases hall : start ≤ e.addr ∧ e.addr + e.len ≤ stop
      · rw [if_pos hall] at havail
        exact absurd (show (2 : Word) = 1 from havail) (by decide)
      · rw [if_neg hall] at havail ⊢
        rw [BitVec.le_def, BitVec.le_def, hend] at hall
        by_cases hfront : start ≤ e.addr
        · rw [if_pos hfront]
          rw [BitVec.le_def] at hfront
          simp only [MapEntry.stop, BitVec.toNat_sub_of_le
            (show stop ≤ e.addr + e.len by rw [BitVec.le_def, hend]; omega), hend]
          simp only [MapEntry.stop] at hmeets hall ⊢
          exact ⟨⟨he, by omega, by omega⟩, Or.inr le_rfl⟩
        · rw [if_neg hfront]
          rw [BitVec.le_def] at hfront
          simp only [MapEntry.stop, BitVec.toNat_sub_of_le
            (show e.addr ≤ start by rw [BitVec.le_def]; omega)]
          simp only [MapEntry.stop] at hmeets
          exact ⟨⟨he, le_rfl, by omega⟩, Or.inl (by omega)⟩
  · rw [if_pos he] at havail
    exact absurd havail he

theorem secondPart_part (hlt : start < stop) (hfits : e.Available → e.stop < 2 ^ 64)
    {p : MapEntry} (hp : p ∈ secondPart start stop e) :
    PartOf e p ∧ Beside start stop p ∧ MapEntry.Apart (cutEntry start stop e) p := by
  rw [secondPart] at hp
  split_ifs at hp with hin
  · obtain rfl := List.mem_singleton.mp hp
    have hcut := cutEntry_of_strictlyInside hlt hin
    obtain ⟨he, hstart, hstop⟩ := hin
    have hend := MapEntry.addr_add_len_toNat (hfits he)
    rw [BitVec.lt_def] at hlt hstart hstop
    rw [hend] at hstop
    have hsub : (e.addr + e.len - stop).toNat = e.stop - stop.toNat := by
      rw [BitVec.toNat_sub_of_le (by rw [BitVec.le_def, hend]; omega), hend]
    refine ⟨⟨he, ?_, ?_⟩, Or.inr le_rfl, ?_⟩
    · change e.addr.toNat ≤ stop.toNat
      omega
    · change stop.toNat + (e.addr + e.len - stop).toNat ≤ e.stop
      omega
    · intro _ _
      rw [hcut, Set.disjoint_left]
      intro x hx hx'
      simp only [MapEntry.bytes, MapEntry.stop, mem_between, BitVec.toNat_sub_of_le
        (show e.addr ≤ start by rw [BitVec.le_def]; omega)] at hx hx'
      omega
  · cases hp

theorem PartOf.apart {p q : MapEntry} {d : MapEntry} (hp : PartOf e p) (hq : PartOf d q)
    (h : MapEntry.Apart e d) : MapEntry.Apart p q := fun _ _ =>
  (h hp.1 hq.1).mono hp.bytes_subset hq.bytes_subset

instance : Std.Symm MapEntry.Apart where
  symm _ _ h hd he := (h he hd).symm

/-- In a tidy map the range lies strictly inside one entry at most. -/
theorem not_both_strictlyInside (hlt : start < stop) {d : MapEntry}
    (he : e.Available → e.stop < 2 ^ 64) (hd : d.Available → d.stop < 2 ^ 64)
    (hapart : MapEntry.Apart e d) :
    ¬ (StrictlyInside start stop e ∧ StrictlyInside start stop d) := by
  rintro ⟨⟨havail, hestart, hestop⟩, ⟨hdavail, hdstart, hdstop⟩⟩
  rw [BitVec.lt_def] at hlt hestart hestop hdstart hdstop
  rw [MapEntry.addr_add_len_toNat (he havail)] at hestop
  rw [MapEntry.addr_add_len_toNat (hd hdavail)] at hdstop
  have hmem : start ∈ e.bytes := mem_between.mpr ⟨by omega, by omega⟩
  exact Set.disjoint_left.mp (hapart havail hdavail) hmem
    (mem_between.mpr ⟨by omega, by omega⟩)

/-- The table is full and the range lies strictly inside an entry. -/
def Refused (start stop : Word) (map : List MapEntry) : Prop :=
  start < stop ∧ mapSlots ≤ map.length ∧ ∃ e ∈ map, StrictlyInside start stop e

/-- What a reservation leaves: parts of the entries, and beside the range unless it is
refused. -/
structure Reserves (start stop : Word) (map map' : List MapEntry) : Prop where
  tidy : MapTidy map'
  parts : ∀ p ∈ map', p.Available → ∃ e ∈ map, PartOf e p
  beside : start < stop → ¬ Refused start stop map → ∀ p ∈ map', p.Available →
    Beside start stop p

/-- Either nothing is split, or one entry is. -/
theorem MapTidy.secondParts (h : MapTidy map) (hlt : start < stop) :
    (∀ e ∈ map, ¬ StrictlyInside start stop e) ∨
      ∃ before e after, map = before ++ e :: after ∧ StrictlyInside start stop e ∧
        (∀ x ∈ before, ¬ StrictlyInside start stop x) ∧
        ∀ x ∈ after, ¬ StrictlyInside start stop x := by
  by_cases hex : ∃ e ∈ map, StrictlyInside start stop e
  · obtain ⟨e, he, hin⟩ := hex
    obtain ⟨before, after, rfl⟩ := List.append_of_mem he
    obtain ⟨-, hafter, hcross⟩ := List.pairwise_append.mp h.apart
    refine Or.inr ⟨before, e, after, rfl, hin, fun x hx hxin => ?_, fun x hx hxin => ?_⟩
    · exact not_both_strictlyInside hlt (h.fits x (by simp [hx])) (h.fits e he)
        (hcross x hx e List.mem_cons_self) ⟨hxin, hin⟩
    · exact not_both_strictlyInside hlt (h.fits e he) (h.fits x (by simp [hx]))
        (List.rel_of_pairwise_cons hafter hx) ⟨hin, hxin⟩
  · simp only [not_exists, not_and] at hex
    exact Or.inl hex

theorem flatMap_secondPart_eq_nil (h : ∀ e ∈ map, ¬ StrictlyInside start stop e) :
    map.flatMap (secondPart start stop) = [] := by
  rw [List.flatMap_eq_nil_iff]
  exact fun e he => if_neg (h e he)

theorem MapTidy.cut (h : MapTidy map) (hlt : start < stop)
    (hroom : map.length + (map.flatMap (secondPart start stop)).length ≤ mapSlots) :
    MapTidy (map.map (cutEntry start stop) ++ map.flatMap (secondPart start stop)) where
  slots := by
    rw [List.length_append, List.length_map]
    exact hroom
  fits := by
    intro p hp havail
    rcases List.mem_append.mp hp with hcut | hsecond
    · obtain ⟨e, he, rfl⟩ := List.mem_map.mp hcut
      have hpart := (cutEntry_part (h.fits e he) havail).1
      exact lt_of_le_of_lt hpart.2.2 (h.fits e he hpart.1)
    · obtain ⟨e, he, hp⟩ := List.mem_flatMap.mp hsecond
      have hpart := (secondPart_part hlt (h.fits e he) hp).1
      exact lt_of_le_of_lt hpart.2.2 (h.fits e he hpart.1)
  apart := by
    rw [List.pairwise_append]
    refine ⟨?_, ?_, ?_⟩
    · rw [List.pairwise_map]
      refine h.apart.imp_of_mem fun {a b} ha hb hab hcut hcut' => ?_
      exact (cutEntry_part (h.fits a ha) hcut).1.apart
        (cutEntry_part (h.fits b hb) hcut').1 hab hcut hcut'
    · rw [List.pairwise_flatMap]
      constructor
      · intro e he
        rw [secondPart]
        split_ifs <;> simp
      · refine h.apart.imp_of_mem fun {a b} ha hb hab p hp q hq => ?_
        exact (secondPart_part hlt (h.fits a ha) hp).1.apart
          (secondPart_part hlt (h.fits b hb) hq).1 hab
    · intro x hx y hy
      obtain ⟨a, ha, rfl⟩ := List.mem_map.mp hx
      obtain ⟨b, hb, hy⟩ := List.mem_flatMap.mp hy
      by_cases hab : a = b
      · rw [hab]
        exact (secondPart_part hlt (h.fits b hb) hy).2.2
      · have hapart := h.apart.forall ha hb hab
        intro hcut
        exact (cutEntry_part (h.fits a ha) hcut).1.apart
          (secondPart_part hlt (h.fits b hb) hy).1 hapart hcut

theorem PartOf.refl (havail : e.Available) : PartOf e e := ⟨havail, le_rfl, le_rfl⟩

theorem MapTidy.reserves_cut (h : MapTidy map) (hlt : start < stop)
    (hroom : map.length + (map.flatMap (secondPart start stop)).length ≤ mapSlots) :
    Reserves start stop map
      (map.map (cutEntry start stop) ++ map.flatMap (secondPart start stop)) := by
  have hpiece : ∀ p ∈ map.map (cutEntry start stop) ++ map.flatMap (secondPart start stop),
      p.Available → ∃ e ∈ map, PartOf e p ∧ Beside start stop p := by
    intro p hp havail
    rcases List.mem_append.mp hp with hcut | hsecond
    · obtain ⟨e, he, rfl⟩ := List.mem_map.mp hcut
      exact ⟨e, he, cutEntry_part (h.fits e he) havail⟩
    · obtain ⟨e, he, hp⟩ := List.mem_flatMap.mp hsecond
      have hpart := secondPart_part hlt (h.fits e he) hp
      exact ⟨e, he, hpart.1, hpart.2.1⟩
  refine ⟨h.cut hlt hroom, fun p hp havail => ?_, fun _ _ p hp havail => ?_⟩
  · obtain ⟨e, he, hpart, -⟩ := hpiece p hp havail
    exact ⟨e, he, hpart⟩
  · obtain ⟨-, -, -, hbeside⟩ := hpiece p hp havail
    exact hbeside

/-- A refused reservation has cut the entries before the one it could not split. -/
theorem MapTidy.reserves_refused {before after : List MapEntry}
    (h : MapTidy (before ++ e :: after))
    (hrefused : Refused start stop (before ++ e :: after)) :
    Reserves start stop (before ++ e :: after)
      (before.map (cutEntry start stop) ++ e :: after) := by
  have hfits : ∀ x ∈ before, x.Available → x.stop < 2 ^ 64 := fun x hx =>
    h.fits x (List.mem_append_left _ hx)
  have hpiece : ∀ p ∈ before.map (cutEntry start stop) ++ e :: after, p.Available →
      ∃ x ∈ before ++ e :: after, PartOf x p := by
    intro p hp havail
    rcases List.mem_append.mp hp with hcut | hrest
    · obtain ⟨x, hx, rfl⟩ := List.mem_map.mp hcut
      exact ⟨x, List.mem_append_left _ hx, (cutEntry_part (hfits x hx) havail).1⟩
    · exact ⟨p, List.mem_append_right _ hrest, PartOf.refl havail⟩
  obtain ⟨hbefore, hafter, hcross⟩ := List.pairwise_append.mp h.apart
  refine ⟨⟨?_, ?_, ?_⟩, hpiece, fun _ hno => absurd hrefused hno⟩
  · have := h.slots
    simp only [List.length_append, List.length_map] at this ⊢
    exact this
  · intro p hp havail
    obtain ⟨x, hx, hpart⟩ := hpiece p hp havail
    exact lt_of_le_of_lt hpart.2.2 (h.fits x hx hpart.1)
  · rw [List.pairwise_append]
    refine ⟨?_, hafter, fun x hx y hy => ?_⟩
    · rw [List.pairwise_map]
      refine hbefore.imp_of_mem fun {a b} ha hb hab hcut hcut' => ?_
      exact (cutEntry_part (hfits a ha) hcut).1.apart
        (cutEntry_part (hfits b hb) hcut').1 hab hcut hcut'
    · obtain ⟨a, ha, rfl⟩ := List.mem_map.mp hx
      intro hcut hy'
      exact (cutEntry_part (hfits a ha) hcut).1.apart (PartOf.refl hy')
        (hcross a ha y hy) hcut hy'

theorem reserves_self (h : MapTidy map) (hno : ¬ start < stop) :
    Reserves start stop map map :=
  ⟨h, fun p hp havail => ⟨p, hp, PartOf.refl havail⟩, fun hlt => absurd hlt hno⟩

theorem memoryReserveRange_spec (h : MapTidy map) (start stop : Word) :
    Reserves start stop map (memoryReserveRange map start stop).2 ∧
      ((memoryReserveRange map start stop).1 ≠ 0 ↔ Refused start stop map) := by
  by_cases hlt : start < stop
  · have hrun : memoryReserveRange map start stop = reserveLoop start stop mapSlots 0 map :=
      if_neg (BitVec.not_le.mpr hlt)
    have hcut (hroom : map.length + (map.flatMap (secondPart start stop)).length ≤ mapSlots) :
        reserveLoop start stop mapSlots 0 map =
          (0, map.map (cutEntry start stop) ++ map.flatMap (secondPart start stop)) := by
      simpa using reserveLoop_eq hlt [] map [] (Nat.zero_add _) (by simpa using hroom) (by simp)
    rw [hrun]
    rcases h.secondParts hlt with hnone | ⟨before, e, after, hmap, hin, hbefore, hafter⟩
    · have hroom : map.length + (map.flatMap (secondPart start stop)).length ≤ mapSlots := by
        rw [flatMap_secondPart_eq_nil hnone]
        exact h.slots
      have hno : ¬ Refused start stop map := fun hrefused =>
        let ⟨_, _, x, hx, hxin⟩ := hrefused
        hnone x hx hxin
      rw [hcut hroom]
      exact ⟨h.reserves_cut hlt hroom, by simp [hno]⟩
    · have hlen : (map.flatMap (secondPart start stop)).length = 1 := by
        rw [hmap, List.flatMap_append, List.flatMap_cons, flatMap_secondPart_eq_nil hbefore,
          flatMap_secondPart_eq_nil hafter, secondPart, if_pos hin]
        rfl
      have hmem : e ∈ map := by simp [hmap]
      by_cases hfull : mapSlots ≤ map.length
      · have hrefused : Refused start stop map := ⟨hlt, hfull, e, hmem, hin⟩
        have hlast : reserveLoop start stop mapSlots 0 map =
            (-1, before.map (cutEntry start stop) ++ e :: after) := by
          have hslots : before.length < mapSlots := by
            have := h.slots
            rw [hmap, List.length_append, List.length_cons] at this
            omega
          rw [hmap] at hfull ⊢
          simpa using reserveLoop_refused hlt [] hfull hin hbefore hslots
        rw [hlast]
        refine ⟨?_, by simp [hrefused]⟩
        rw [hmap] at h hrefused ⊢
        exact h.reserves_refused hrefused
      · have hroom : map.length + (map.flatMap (secondPart start stop)).length ≤ mapSlots := by
          omega
        rw [hcut hroom]
        exact ⟨h.reserves_cut hlt hroom, by simp [Refused, hfull]⟩
  · have hrun : memoryReserveRange map start stop = (0, map) :=
      if_pos (BitVec.not_lt.mp hlt)
    rw [hrun]
    exact ⟨reserves_self h hlt, by simp [Refused, hlt]⟩

end Utopia
