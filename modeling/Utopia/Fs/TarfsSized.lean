/-
The data of the nodes of a mounted archive lie in the archive.
-/
import Utopia.Fs.TarfsRun

namespace Utopia

namespace TarfsNode

/-- A null data pointer stands for no bytes. -/
def Sized (v : TarfsNode) : Prop := v.data = none → v.size = 0

/-- There are no data, or they are bytes of the image. -/
def InImage (image : List Byte) (v : TarfsNode) : Prop :=
  v.data = none ∧ v.size = 0 ∨ ∃ d, v.data = some d ∧ d + v.size.toNat ≤ image.length

/-- Symlinks are of type file. -/
def LinkIsFile (v : TarfsNode) : Prop := v.isSymlink = true → v.type = .file

end TarfsNode

/-- The number that twelve digits stand for. -/
theorem tarfsOct2u64_lt {field : List Byte} (hlen : field.length ≤ 12) :
    (tarfsOct2u64 field).toNat < 2 ^ 36 := by
  have hfold : ∀ (digits : List Byte) (v : Word) (k : ℕ), (∀ b ∈ digits, 0x30 ≤ b ∧ b ≤ 0x37) →
      v.toNat < k → (digits.foldl (fun (v : Word) b => (v <<< 3) + (b - 0x30).setWidth 64)
        v).toNat < k * 8 ^ digits.length := by
    intro digits
    induction digits with
    | nil => exact fun v k _ hv => by simpa using hv
    | cons b digits ih =>
        intro v k hall hv
        have hdigit := hall b List.mem_cons_self
        have hsub : (b - 0x30).toNat < 8 := by bv_omega
        have hnext : ((v <<< 3) + (b - 0x30).setWidth 64).toNat < k * 8 := by
          rw [BitVec.toNat_add, BitVec.toNat_shiftLeft, Nat.shiftLeft_eq, BitVec.toNat_setWidth]
          omega
        have hrest := ih _ (k * 8) (fun c hc => hall c (List.mem_cons_of_mem _ hc)) hnext
        rwa [List.foldl_cons, List.length_cons, pow_succ', ← mul_assoc]
  have hdigits := hfold (field.takeWhile fun b => 0x30 ≤ b ∧ b ≤ 0x37) 0 1
    (fun b hb => by simpa using List.mem_takeWhile_imp hb) (by decide)
  have hshort := (List.takeWhile_prefix (fun b : Byte => decide (0x30 ≤ b ∧ b ≤ 0x37))
    (l := field)).length_le
  rw [one_mul] at hdigits
  exact hdigits.trans_le (Nat.pow_le_pow_right (by decide) (hshort.trans hlen))

/-- The loop makes entries only of headers whose data are in the image. -/
theorem headerAt_fits {image : List Byte} {offset size : Word} {hdr : TarHeader} {data : ℕ}
    (hfit : image.length + 2 ^ 36 + 512 ≤ 2 ^ 64)
    (h : headerAt image offset = some (hdr, data, size)) :
    offset.toNat + 512 = data ∧ data + size.toNat ≤ image.length := by
  have hshort : (TarHeader.size ((image.drop offset.toNat).take 512)).length ≤ 12 :=
    List.length_take_le _ _
  simp only [headerAt] at h
  obtain ⟨block, hread⟩ : ∃ block : TarHeader, (image.drop offset.toNat).take 512 = block :=
    ⟨_, rfl⟩
  rw [hread] at h hshort
  have hlt : (if block.typeflag = 0x31 ∨ block.typeflag = 0x32 then (0 : Word) else
      tarfsOct2u64 block.size).toNat < 2 ^ 36 := by
    split_ifs
    · decide
    · exact tarfsOct2u64_lt hshort
  generalize (if block.typeflag = 0x31 ∨ block.typeflag = 0x32 then (0 : Word) else
    tarfsOct2u64 block.size) = blockSize at h hlt
  split_ifs at h with hnone
  obtain ⟨rfl, hrest⟩ := Prod.mk.inj (Option.some.inj h)
  obtain ⟨rfl, rfl⟩ := Prod.mk.inj hrest
  simp only [not_or] at hnone
  obtain ⟨hheader, hzero, hdata, -⟩ := hnone
  have hinside : offset.toNat < image.length := by
    by_contra hout
    rw [← hread, List.drop_eq_nil_of_le (not_lt.mp hout)] at hzero
    exact hzero rfl
  have himage : (BitVec.ofNat 64 image.length).toNat = image.length := by
    rw [BitVec.toNat_ofNat]
    exact Nat.mod_eq_of_lt (by omega)
  have h512 : (offset + 512).toNat = offset.toNat + 512 :=
    toNat_add_of_lt (show offset.toNat + (512 : Word).toNat < 2 ^ 64 by
      change offset.toNat + 512 < _
      omega)
  have hsum := toNat_add_of_lt (show (offset + 512).toNat + blockSize.toNat < 2 ^ 64 by omega)
  rw [BitVec.not_lt, BitVec.le_def, himage, hsum] at hdata
  exact ⟨h512.symm, hdata⟩

namespace Tarfs

variable {s : Tarfs} {granted : ℕ → Bool} {image : List Byte}

theorem mount_sized (h : mount granted image = some (.ok s)) (n : NodePtr) :
    (s.node n).Sized := by
  refine mount_nodes (fun v ps cs hv => hv) (fun s v hall hmakes => ?_) (fun _ => rfl) h n
  rcases hmakes.cases with ⟨c, rfl⟩ | ⟨c, target, rfl⟩ | ⟨c, t, rfl⟩ | ⟨c, -, -, d, size, -, rfl⟩
  · exact fun _ => rfl
  · exact fun _ => rfl
  · -- a hard link has the data and the size of its target
    exact hall t
  · exact fun hnone => by cases hnone

theorem mount_inImage (hfit : image.length + 2 ^ 36 + 512 ≤ 2 ^ 64)
    (h : mount granted image = some (.ok s)) (n : NodePtr) : (s.node n).InImage image := by
  refine mount_nodes (fun v ps cs hv => hv) (fun s v hall hmakes => ?_) (Or.inl ⟨rfl, rfl⟩) h n
  rcases hmakes.cases with ⟨c, rfl⟩ | ⟨c, target, rfl⟩ | ⟨c, t, rfl⟩ |
    ⟨c, offset, hdr, d, size, hhdr, rfl⟩
  · exact Or.inl ⟨rfl, rfl⟩
  · exact Or.inl ⟨rfl, rfl⟩
  · exact hall t
  · exact Or.inr ⟨d, rfl, (headerAt_fits hfit hhdr).2⟩

theorem mount_linkIsFile (h : mount granted image = some (.ok s)) (n : NodePtr) :
    (s.node n).LinkIsFile := by
  refine mount_nodes (fun v ps cs hv => hv) (fun s v hall hmakes => ?_) (fun _ => rfl) h n
  rcases hmakes.cases with ⟨c, rfl⟩ | ⟨c, target, rfl⟩ | ⟨c, t, rfl⟩ | ⟨c, -, -, d, size, -, rfl⟩
  · exact fun hlink => by cases hlink
  · exact fun _ => rfl
  · exact fun hlink => by cases hlink
  · exact fun _ => rfl

end Tarfs

end Utopia
