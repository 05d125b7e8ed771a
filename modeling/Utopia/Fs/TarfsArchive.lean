/-
The loop of `tarfs_parse_archive`: from an archive of a directory tree it builds that
tree.
-/
import Utopia.Fs.TarfsDecode
import Mathlib.Data.List.GetD

namespace Utopia

open Tarfs

namespace EncodesHeader

variable {hdr : TarHeader} {e : ArchiveEntry}

/-- Hard links have no data, and other entries as much as the size field tells. -/
theorem size_eq (h : EncodesHeader hdr e) :
    (if hdr.typeflag = 0x31 ∨ hdr.typeflag = 0x32 then 0 else tarfsOct2u64 hdr.size) =
      BitVec.ofNat 64 e.data.length ∧ e.data.length < 8 ^ 11 := by
  have hkind := h.kind
  cases hk : e.kind with
  | dir =>
      rw [hk] at hkind
      rw [if_neg (by rw [hkind.1]; decide), tarfsOct2u64_eq hkind.2, ArchiveEntry.data, hk]
      exact ⟨rfl, by decide⟩
  | file bytes =>
      rw [hk] at hkind
      have hne : ¬ (hdr.typeflag = 0x31 ∨ hdr.typeflag = 0x32) := by
        rcases hkind.1 with hflag | hflag <;> rw [hflag] <;> decide
      rw [if_neg hne, tarfsOct2u64_eq hkind.2, ArchiveEntry.data, hk]
      exact ⟨rfl, lt_of_holdsOctal hkind.2⟩
  | link target =>
      rw [hk] at hkind
      rw [if_pos (Or.inl hkind.1), ArchiveEntry.data, hk]
      exact ⟨rfl, Nat.pow_pos (by decide)⟩

theorem typeflag_mem (h : EncodesHeader hdr e) :
    hdr.typeflag = 0 ∨ hdr.typeflag = 0x30 ∨ hdr.typeflag = 0x31 ∨ hdr.typeflag = 0x32 ∨
      hdr.typeflag = 0x35 := by
  have hkind := h.kind
  cases hk : e.kind with
  | dir =>
      rw [hk] at hkind
      simp [hkind.1]
  | file bytes =>
      rw [hk] at hkind
      rcases hkind.1 with hflag | hflag <;> simp [hflag]
  | link target =>
      rw [hk] at hkind
      simp [hkind.1]

/-- A header is not the end of the archive. -/
theorem not_zero (h : EncodesHeader hdr e) : tarfsBlockIsZero hdr = false := by
  by_contra hzero
  have hall : ∀ b ∈ hdr, b = 0 := by
    simpa [tarfsBlockIsZero] using hzero
  have hflag : hdr.typeflag = 0 := by
    rw [TarHeader.typeflag, List.getD_eq_getElem _ _ (by rw [h.length]; decide)]
    exact hall _ (List.getElem_mem _)
  have hkind := h.kind
  cases hk : e.kind with
  | dir =>
      rw [hk, hflag] at hkind
      exact absurd hkind.1 (by decide)
  | file bytes =>
      rw [hk] at hkind
      obtain ⟨digits, stop, hlen, hdigits, -, -, hfield⟩ := hkind.2
      obtain ⟨d, rest, rfl⟩ := List.exists_cons_of_length_eq_add_one hlen
      have hmem : BitVec.ofNat 8 (0x30 + d) ∈ hdr.size := by
        rw [hfield]
        simp
      have hdigit := (octalDigit_eq (hdigits d List.mem_cons_self)).1.1
      rw [hall _ (List.mem_of_mem_drop (List.mem_of_mem_take hmem))] at hdigit
      exact absurd hdigit (by decide)
  | link target =>
      rw [hk, hflag] at hkind
      exact absurd hkind.1 (by decide)

end EncodesHeader

namespace Tarfs

variable {s s' : Tarfs} {image front rest : List Byte} {path : NodePtr → FilePath}
  {K : Set FilePath} {tree : FileTree} {entries before : List ArchiveEntry} {offset : Word}

theorem toNat_add_header (hoffset : offset.toNat = front.length)
    (hlt : front.length + 512 < 2 ^ 64) : (offset + 512).toNat = front.length + 512 := by
  have h512 : (512 : Word).toNat = 512 := rfl
  rw [toNat_add_of_lt (by rw [hoffset, h512]; exact hlt), hoffset, h512]

/-- A round of the loop at an entry. -/
theorem parseStep_entry {hdr padding : List Byte} {e : ArchiveEntry} (hhdr : EncodesHeader hdr e)
    (padded : 512 ∣ e.data.length + padding.length) (short : padding.length < 512)
    (himage : image = front ++ (hdr ++ e.data ++ padding ++ rest))
    (hfit : image.length + 512 < 2 ^ 64) (hoffset : offset.toNat = front.length) :
    ∃ (next size : Word) (data : ℕ), s.parseStep image offset =
        some (next, s.parseEntry hdr data size) ∧
      next.toNat = (front ++ (hdr ++ e.data ++ padding)).length ∧
      size.toNat = e.data.length ∧ (image.drop data).take e.data.length = e.data := by
  obtain ⟨hsize, hlt⟩ := hhdr.size_eq
  have hlen : image.length = front.length + (512 + e.data.length + padding.length + rest.length) := by
    rw [himage]
    simp [hhdr.length]
    omega
  have himageSize : (BitVec.ofNat 64 image.length).toNat = image.length := by
    rw [BitVec.toNat_ofNat, Nat.mod_eq_of_lt (by omega)]
  have hread : (image.drop offset.toNat).take 512 = hdr := by
    rw [hoffset, himage, List.drop_left, List.append_assoc, List.append_assoc,
      List.take_left' hhdr.length]
  have hdata := toNat_add_header hoffset (by omega)
  have hsizeNat : (BitVec.ofNat 64 e.data.length).toNat = e.data.length := by
    rw [BitVec.toNat_ofNat, Nat.mod_eq_of_lt (by omega)]
  have hend : (offset + 512 + BitVec.ofNat 64 e.data.length).toNat =
      front.length + 512 + e.data.length := by
    rw [toNat_add_of_lt] <;> rw [hdata, hsizeNat]
    omega
  have halign : (tarfsAlignUp (BitVec.ofNat 64 e.data.length)).toNat =
      e.data.length + padding.length := by
    rw [toNat_tarfsAlignUp (by rw [hsizeNat]; omega), hsizeNat]
    omega
  have hnext : (offset + 512 + tarfsAlignUp (BitVec.ofNat 64 e.data.length)).toNat =
      front.length + 512 + (e.data.length + padding.length) := by
    rw [toNat_add_of_lt] <;> rw [hdata, halign]
    omega
  refine ⟨_, BitVec.ofNat 64 e.data.length, (offset + 512).toNat, ?_, hnext.trans ?_, hsizeNat, ?_⟩
  · simp only [parseStep, hread, hsize]
    rw [if_neg (by rw [BitVec.lt_def, himageSize, hdata]; omega), hhdr.not_zero,
      if_neg (by decide), if_neg (by rw [BitVec.lt_def, himageSize, hend]; omega),
      if_pos hhdr.typeflag_mem]
  · simp [hhdr.length]
    omega
  · rw [hdata, himage, ← List.append_assoc, ← List.append_assoc, ← List.append_assoc,
      List.append_assoc (front ++ hdr), List.append_assoc (front ++ hdr),
      List.drop_left' (by rw [List.length_append, hhdr.length]), List.append_assoc,
      List.take_left]

/-- The end of the archive. -/
theorem parseStep_end (h : rest.length < 512 ∨ rest.take 512 = List.replicate 512 0)
    (himage : image = front ++ rest) (hfit : image.length + 512 < 2 ^ 64)
    (hoffset : offset.toNat = front.length) : s.parseStep image offset = none := by
  have hlen : image.length = front.length + rest.length := by
    rw [himage, List.length_append]
  have himageSize : (BitVec.ofNat 64 image.length).toNat = image.length := by
    rw [BitVec.toNat_ofNat, Nat.mod_eq_of_lt (by omega)]
  have hdata := toNat_add_header hoffset (by omega)
  simp only [parseStep]
  rcases h with hshort | hzero
  · rw [if_pos (by rw [BitVec.lt_def, himageSize, hdata]; omega)]
  · have hblock : tarfsBlockIsZero ((image.drop offset.toNat).take 512) = true := by
      rw [hoffset, himage, List.drop_left, hzero, tarfsBlockIsZero, List.all_eq_true]
      intro b hb
      simpa using List.eq_of_mem_replicate hb
    rw [if_pos hblock, ite_self]

theorem length_of_encodes {entries : List ArchiveEntry} (h : EncodesArchive entries rest) :
    entries.length * 512 ≤ rest.length := by
  induction h with
  | nil _ => simp
  | @cons hdr padding rest e entries header _ _ _ ih =>
      have hlen : rest.length + hdr.length ≤ (hdr ++ e.data ++ padding ++ rest).length := by
        clear ih
        simp only [List.length_append]
        omega
      calc (e :: entries).length * 512 = entries.length * 512 + 512 := Nat.succ_mul _ _
        _ ≤ rest.length + hdr.length := Nat.add_le_add ih header.length.ge
        _ ≤ (hdr ++ e.data ++ padding ++ rest).length := hlen

/-- The loop builds what the entries tell. -/
theorem Built.parseLoop (h : s.Built image tree.withDot path K)
    (henc : EncodesArchive entries rest) (hser : Serialises tree (before ++ entries))
    (hbefore : ∀ e ∈ before, e.path ∈ K) (himage : image = front ++ rest)
    (hfit : image.length + 512 < 2 ^ 64) (hoffset : offset.toNat = front.length) {fuel : ℕ}
    (hfuel : entries.length < fuel) :
    ∃ s' path' K', Tarfs.parseLoop image fuel offset s = some s' ∧
      s'.Built image tree.withDot path' K' ∧ ∀ e ∈ before ++ entries, e.path ∈ K' := by
  induction henc generalizing s path K before front offset fuel with
  | nil hend =>
      obtain ⟨fuel, rfl⟩ := Nat.exists_eq_add_one_of_ne_zero (Nat.ne_zero_of_lt hfuel)
      refine ⟨s, path, K, ?_, h, by simpa using hbefore⟩
      rw [Tarfs.parseLoop, parseStep_end hend himage hfit hoffset]
      rfl
  | @cons hdr padding rest e entries header padded short tail ih =>
      obtain ⟨fuel, rfl⟩ := Nat.exists_eq_add_one_of_ne_zero (Nat.ne_zero_of_lt hfuel)
      obtain ⟨next, size, data, hstep, hnext, hsize, hdata⟩ :=
        parseStep_entry (s := s) header padded short himage hfit hoffset
      have htarget : ∀ t, e.kind = .link t → t ∈ K := by
        intro t ht
        obtain ⟨f, hf, rfl⟩ := hser.targets before e entries t rfl ht
        exact hbefore f hf
      obtain ⟨path', K', hbuilt, hsub, hmem⟩ :=
        h.parseEntry header (hser.sound e (by simp)) htarget hdata hsize
      have hbefore' : ∀ f ∈ before ++ [e], f.path ∈ K' := by
        intro f hf
        rcases List.mem_append.mp hf with hf | hf
        · exact hsub (hbefore f hf)
        · rw [List.mem_singleton.mp hf]
          exact hmem
      have hsplit : before ++ e :: entries = before ++ [e] ++ entries := by simp
      have himage' : image = front ++ (hdr ++ e.data ++ padding) ++ rest := by
        rw [himage]
        simp
      obtain ⟨s', path'', K'', hloop, hbuilt', hall⟩ := ih hbuilt (hsplit ▸ hser) hbefore' himage'
        hnext (Nat.lt_of_succ_lt_succ hfuel)
      refine ⟨s', path'', K'', ?_, hbuilt', hsplit ▸ hall⟩
      rw [Tarfs.parseLoop, hstep]
      exact hloop

/-- The root alone. -/
theorem Built.initial {granted : ℕ → Bool} (hgranted : ∀ k, granted k = true) {n : NodePtr}
    (hroot : (empty granted).createNode [] .dir = .ok (n, s)) :
    s.Built image tree.withDot (fun _ => []) {[]} := by
  have hwf := initial_wellFormed hroot
  rw [createNode] at hroot
  split_ifs at hroot
  obtain ⟨-, rfl⟩ := Prod.mk.inj (Except.ok.inj hroot)
  have hlt : ∀ c, c < 1 → c = Tarfs.root := fun c hc => Nat.lt_one_iff.mp hc
  refine ⟨hwf, hgranted, fun n hn => ?_, rfl, fun n hn c hc => ?_, fun q => ?_, fun n hn => ?_⟩
  · rw [hlt n hn]
    rfl
  · rw [hlt n hn] at hc
    cases hc
  · rw [Set.mem_singleton_iff, eq_comm]
    exact ⟨fun hq => ⟨Tarfs.root, Nat.one_pos, hq⟩, fun hq => hq.choose_spec.2⟩
  · rw [hlt n hn, FileTree.withDot_eq (by rw [tree.root]; simp), tree.root]
    exact ⟨.dir, rfl, rfl⟩

/-- What ustar encodes, `tarfs_mount` decodes: behind it, walking along a path of the tree
ends at a node with the content that the tree has there, and walking along any other path
of names ends nowhere. -/
theorem mount_decodes {granted : ℕ → Bool} (hser : Serialises tree entries)
    (henc : EncodesArchive entries image) (hfit : image.length + 512 < 2 ^ 64)
    (hgranted : ∀ k, granted k = true) :
    ∃ s, mount granted image = some (.ok s) ∧ ∀ str : List Byte,
      (∀ c ∈ components slash str, IsFileName c) →
      match tree.content (components slash str) with
      | some x => ∃ n, s.walk root str = some n ∧ (s.node n).Holds image x
      | none => s.walk root str = none := by
  have hcreate : ∃ r, (empty granted).createNode [] .dir = .ok r := ⟨_, if_pos (hgranted _)⟩
  obtain ⟨⟨n, s₀⟩, hroot⟩ := hcreate
  have hinit : s₀.Built image tree.withDot (fun _ => []) {[]} := Built.initial hgranted hroot
  have hparse : ∃ s path K, s₀.parseArchive image = some s ∧
      s.Built image tree.withDot path K ∧ ∀ e ∈ entries, e.path ∈ K := by
    have hlen := length_of_encodes henc
    rw [parseArchive]
    split_ifs with hshort
    · have hnone : entries = [] := List.length_eq_zero_iff.mp
        (Nat.lt_one_iff.mp (Nat.lt_of_mul_lt_mul_right (hlen.trans_lt hshort)))
      exact ⟨s₀, _, _, rfl, hinit, by rw [hnone]; exact fun _ he => absurd he List.not_mem_nil⟩
    · have hfuel : entries.length < image.length / 512 + 1 :=
        Nat.lt_succ_of_le ((Nat.le_div_iff_mul_le (by decide)).mpr hlen)
      have hnothing : ∀ e ∈ ([] : List ArchiveEntry), e.path ∈ ({[]} : Set FilePath) :=
        fun _ he => absurd he List.not_mem_nil
      have hser' : Serialises tree ([] ++ entries) := hser
      exact hinit.parseLoop henc hser' hnothing (List.nil_append _).symm hfit rfl hfuel
  obtain ⟨s, path, K, hrun, hbuilt, hall⟩ := hparse
  refine ⟨s, by rw [mount, hroot]; simp only [hrun, Option.map_some], fun str hstr => ?_⟩
  have hwalk := fun n => hbuilt.walk_root_eq_some (n := n)
    (fun p c => FileTree.withDot_parent p c) str fun c hc => (hstr c hc).2.2
  cases hcontent : tree.content (components slash str) with
  | some x =>
      have hsome : tree.content (components slash str) ≠ none := by rw [hcontent]; simp
      have hmem : components slash str ∈ K := by
        rcases hser.complete _ hsome with hroot | ⟨e, he, habove⟩
        · exact (hbuilt.paths _).mpr
            ⟨Tarfs.root, hbuilt.wellFormed.root_lt, hbuilt.root.trans hroot.symm⟩
        · exact hbuilt.mem_of_above (hall e he) habove
      obtain ⟨n, hn, hpath⟩ := (hbuilt.paths _).mp hmem
      obtain ⟨y, hy, hholds⟩ := hbuilt.holds n hn
      rw [hpath, FileTree.withDot_eq hsome, hcontent] at hy
      obtain rfl := Option.some.inj hy
      exact ⟨n, (hwalk n).mpr ⟨hn, hpath⟩, hholds⟩
  | none =>
      cases hfound : s.walk Tarfs.root str with
      | none => rfl
      | some n =>
          obtain ⟨hn, hpath⟩ := (hwalk n).mp hfound
          obtain ⟨y, hy, -⟩ := hbuilt.holds n hn
          rw [hpath, FileTree.withDot, if_neg, hcontent] at hy
          · cases hy
          · intro hdot
            exact (hstr [dot] (by rw [hdot]; simp)).2.2.1 rfl

/-- A directory `d` with a file `a`, which has a second name `b`. -/
def sampleContent (p : FilePath) : Option FileContent :=
  if p = [] ∨ p = [[0x64]] then some .dir
  else if p = [[0x64], [0x61]] ∨ p = [[0x64], [0x62]] then some (.file [0x68])
  else none

theorem sampleContent_ne_none {p : FilePath} (h : sampleContent p ≠ none) :
    p = [] ∨ p = [[0x64]] ∨ p = [[0x64], [0x61]] ∨ p = [[0x64], [0x62]] := by
  rw [sampleContent] at h
  split_ifs at h with hdir hfile
  · rcases hdir with hp | hp <;> simp [hp]
  · rcases hfile with hp | hp <;> simp [hp]
  · exact absurd rfl h

def sampleTree : FileTree where
  content := sampleContent
  root := rfl
  parent p c h := by
    have hlast : ∀ q : FilePath, ∀ b, p ++ [c] = q ++ [b] → p = q := fun q b hq =>
      (List.append_inj' hq rfl).1
    rcases sampleContent_ne_none h with hp | hp | hp | hp
    · simp at hp
    · rw [hlast [] [0x64] hp]
      rfl
    · rw [hlast [[0x64]] [0x61] hp]
      rfl
    · rw [hlast [[0x64]] [0x62] hp]
      rfl
  names p h := by
    unfold IsFileName IsComponent
    rcases sampleContent_ne_none h with hp | hp | hp | hp <;> rw [hp] <;> decide

/-- A header with its fields for the path, one digit of the size, the type and the target. -/
def sampleHeader (name : List Byte) (digit typeflag : Byte) (linkname : List Byte) : TarHeader :=
  name ++ List.replicate (124 - name.length) 0 ++ List.replicate 10 0x30 ++ [digit, 0] ++
    List.replicate 20 0 ++ typeflag :: linkname ++ List.replicate (355 - linkname.length) 0

/-- A header and the data behind it, in blocks of 512 bytes. -/
def sampleBlocks (hdr : TarHeader) (data : List Byte) : List Byte :=
  hdr ++ data ++ List.replicate ((512 - data.length % 512) % 512) 0

/-- The paths in the headers are `./d/`, `./d/a` and `d/b`, a hard link to `./d/a`. -/
def sampleArchive : List Byte :=
  sampleBlocks (sampleHeader [dot, slash, 0x64, slash] 0x30 0x35 []) [] ++
    (sampleBlocks (sampleHeader [dot, slash, 0x64, slash, 0x61] 0x31 0x30 []) [0x68] ++
      (sampleBlocks (sampleHeader [0x64, slash, 0x62] 0x30 0x31 [dot, slash, 0x64, slash, 0x61])
        [] ++ List.replicate 1024 0))

def sampleEntries : List ArchiveEntry :=
  [⟨[[0x64]], .dir⟩, ⟨[[0x64], [0x61]], .file [0x68]⟩,
    ⟨[[0x64], [0x62]], .link [[0x64], [0x61]]⟩]

theorem sampleTree_serialises : Serialises sampleTree sampleEntries := by
  refine ⟨fun e he => ?_, fun p hp => ?_, fun before e after target h hk => ?_⟩
  · simp only [sampleEntries, List.mem_cons, List.not_mem_nil, or_false] at he
    rcases he with rfl | rfl | rfl
    · rfl
    · rfl
    · exact ⟨[0x68], rfl, rfl⟩
  · rcases sampleContent_ne_none hp with rfl | rfl | rfl | rfl
    · exact Or.inl rfl
    · exact Or.inr ⟨⟨[[0x64]], .dir⟩, by simp [sampleEntries], List.prefix_rfl⟩
    · exact Or.inr ⟨⟨[[0x64], [0x61]], .file [0x68]⟩, by simp [sampleEntries], List.prefix_rfl⟩
    · exact Or.inr ⟨⟨[[0x64], [0x62]], .link [[0x64], [0x61]]⟩, by simp [sampleEntries],
        List.prefix_rfl⟩
  · -- the link is the third entry
    rcases before with _ | ⟨first, _ | ⟨second, _ | ⟨third, before⟩⟩⟩ <;>
      simp only [sampleEntries, List.nil_append, List.cons_append, List.cons.injEq] at h
    · obtain ⟨rfl, -⟩ := h
      cases hk
    · obtain ⟨-, rfl, -⟩ := h
      cases hk
    · obtain ⟨-, hsecond, rfl, -⟩ := h
      cases hk
      exact ⟨second, by simp, by rw [← hsecond]⟩
    · simp at h

set_option maxRecDepth 8000 in
theorem sampleArchive_encodes : EncodesArchive sampleEntries sampleArchive := by
  have hzero : HoldsOctal (List.replicate 10 0x30 ++ [0x30, 0]) 0 :=
    ⟨List.replicate 11 0, 0, by decide, by decide, by decide, Or.inl rfl, by decide⟩
  have hone : HoldsOctal (List.replicate 10 0x30 ++ [0x31, 0]) 1 :=
    ⟨List.replicate 10 0 ++ [1], 0, by decide, by decide, by decide, Or.inl rfl, by decide⟩
  have hdir : EncodesHeader (sampleHeader [dot, slash, 0x64, slash] 0x30 0x35 [])
      ⟨[[0x64]], .dir⟩ :=
    ⟨by decide, ⟨[dot, slash, 0x64], Or.inr rfl, _, Or.inr ⟨rfl, rfl⟩,
      Or.inl ⟨by decide, by decide⟩⟩, rfl, hzero⟩
  have hfile : EncodesHeader (sampleHeader [dot, slash, 0x64, slash, 0x61] 0x31 0x30 [])
      ⟨[[0x64], [0x61]], .file [0x68]⟩ :=
    ⟨by decide, ⟨_, Or.inr rfl, _, Or.inl rfl, Or.inl ⟨by decide, by decide⟩⟩, Or.inr rfl, hone⟩
  have hlink : EncodesHeader
      (sampleHeader [0x64, slash, 0x62] 0x30 0x31 [dot, slash, 0x64, slash, 0x61])
      ⟨[[0x64], [0x62]], .link [[0x64], [0x61]]⟩ :=
    ⟨by decide, ⟨_, Or.inl rfl, _, Or.inl rfl, Or.inl ⟨by decide, by decide⟩⟩, rfl,
      Or.inr (by decide)⟩
  exact .cons hdir (by decide) (by decide) (.cons hfile (by decide) (by decide)
    (.cons hlink (by decide) (by decide) (.nil (Or.inr (by decide)))))

/-- Both names of the file lead to its data, and what is not in the tree is not found. -/
theorem mount_decodes_sample :
    ∃ s, mount (fun _ => true) sampleArchive = some (.ok s) ∧
      (∃ n, s.walk root [0x64] = some n ∧ (s.node n).Holds sampleArchive .dir) ∧
      (∃ n, s.walk root [0x64, slash, 0x61] = some n ∧
        (s.node n).Holds sampleArchive (.file [0x68])) ∧
      (∃ n, s.walk root [0x64, slash, slash, 0x62] = some n ∧
        (s.node n).Holds sampleArchive (.file [0x68])) ∧
      s.walk root [0x61] = none := by
  have hfit : sampleArchive.length + 512 < 2 ^ 64 := by decide +kernel
  obtain ⟨s, hrun, hwalk⟩ :=
    mount_decodes sampleTree_serialises sampleArchive_encodes hfit fun _ => rfl
  have hnames : ∀ str ∈ ([[0x64], [0x64, slash, 0x61], [0x64, slash, slash, 0x62], [0x61]] :
      List (List Byte)), ∀ c ∈ components slash str, IsFileName c := by
    unfold IsFileName IsComponent
    decide
  exact ⟨s, hrun, hwalk _ (hnames [0x64] (by simp)), hwalk _ (hnames [0x64, slash, 0x61] (by simp)),
    hwalk _ (hnames [0x64, slash, slash, 0x62] (by simp)), hwalk _ (hnames [0x61] (by simp))⟩

end Tarfs

end Utopia
