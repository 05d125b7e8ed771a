/-
Directory trees, and the ustar archives that serialise them.
-/
import Utopia.Fs.Tarfs

namespace Utopia

/-- A path as the list of its components. -/
abbrev FilePath := List (List Byte)

inductive FileContent where
  | dir
  | file (bytes : List Byte)
deriving DecidableEq, Repr

/-- A name in a directory tree. -/
def IsFileName (c : List Byte) : Prop :=
  IsComponent slash c ∧ 0 ∉ c ∧ c ≠ [dot] ∧ c ≠ [dot, dot]

/-- A directory tree: what is at each path, if anything. -/
structure FileTree where
  content : FilePath → Option FileContent
  root : content [] = some .dir
  parent : ∀ p c, content (p ++ [c]) ≠ none → content p = some .dir
  names : ∀ p, content p ≠ none → ∀ c ∈ p, IsFileName c

inductive EntryKind where
  | dir
  | file (bytes : List Byte)
  | link (target : FilePath)
deriving DecidableEq, Repr

/-- An entry of an archive. -/
structure ArchiveEntry where
  path : FilePath
  kind : EntryKind
deriving DecidableEq, Repr

namespace ArchiveEntry

variable (e : ArchiveEntry)

/-- The data behind the header. -/
def data : List Byte :=
  match e.kind with
  | .file bytes => bytes
  | _ => []

end ArchiveEntry

/-- An entry tells what the tree has at its path. -/
def EntrySound (tree : FileTree) (e : ArchiveEntry) : Prop :=
  match e.kind with
  | .dir => tree.content e.path = some .dir
  | .file bytes => tree.content e.path = some (.file bytes)
  | .link target => ∃ bytes, tree.content e.path = some (.file bytes) ∧
      tree.content target = some (.file bytes)

/-- The entries of a directory tree, in any order: all files and hard links, hard links
behind their targets, and as many of the directories as one likes, as long as those
without anything in them are there. -/
structure Serialises (tree : FileTree) (entries : List ArchiveEntry) : Prop where
  sound : ∀ e ∈ entries, EntrySound tree e
  complete : ∀ p, tree.content p ≠ none → p = [] ∨ ∃ e ∈ entries, p <+: e.path
  targets : ∀ before e after target, entries = before ++ e :: after → e.kind = .link target →
    ∃ f ∈ before, f.path = target

/-- Eleven octal digits, and a NUL or a blank behind them. -/
def HoldsOctal (field : List Byte) (n : ℕ) : Prop :=
  ∃ (digits : List ℕ) (stop : Byte), digits.length = 11 ∧ (∀ d ∈ digits, d < 8) ∧
    digits.foldl (fun v d => 8 * v + d) 0 = n ∧ (stop = 0 ∨ stop = 0x20) ∧
    field = (digits.map fun d => BitVec.ofNat 8 (0x30 + d)) ++ [stop]

/-- A path in an archive: the components, perhaps with `./` in front. -/
def IsArchivePath (path : FilePath) (s : List Byte) : Prop :=
  s = [slash].intercalate path ∨ s = dot :: slash :: [slash].intercalate path

/-- A header block for an entry.  The path is in the name field, or split at a slash
between that and the prefix field; directories may end with a slash. -/
structure EncodesHeader (hdr : TarHeader) (e : ArchiveEntry) : Prop where
  length : hdr.length = 512
  path : ∃ s, IsArchivePath e.path s ∧ ∃ t, (t = s ∨ e.kind = .dir ∧ t = s ++ [slash]) ∧
    ((cString hdr.namePrefix = [] ∧ cString hdr.name = t) ∨
      (cString hdr.namePrefix ≠ [] ∧ t = cString hdr.namePrefix ++ slash :: cString hdr.name))
  kind : match e.kind with
    | .dir => hdr.typeflag = 0x35 ∧ HoldsOctal hdr.size 0
    | .file bytes => (hdr.typeflag = 0 ∨ hdr.typeflag = 0x30) ∧ HoldsOctal hdr.size bytes.length
    | .link target => hdr.typeflag = 0x31 ∧ IsArchivePath target (cString hdr.linkname)

/-- An archive with these entries: headers, data and padding to blocks of 512 bytes, and
a block of zeros behind them unless the archive ends there. -/
inductive EncodesArchive : List ArchiveEntry → List Byte → Prop
  | nil {rest : List Byte} (h : rest.length < 512 ∨ rest.take 512 = List.replicate 512 0) :
      EncodesArchive [] rest
  | cons {hdr padding rest : List Byte} {e : ArchiveEntry} {entries : List ArchiveEntry}
      (header : EncodesHeader hdr e) (padded : 512 ∣ e.data.length + padding.length)
      (short : padding.length < 512) (tail : EncodesArchive entries rest) :
      EncodesArchive (e :: entries) (hdr ++ e.data ++ padding ++ rest)

end Utopia
