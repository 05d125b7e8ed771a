/-
The file system of `fs/tarfs.c`: nodes, the walk along a path, and the parser that
builds the nodes from a ustar archive.
-/
import Utopia.Lib.Memory
import Utopia.Lib.Path

namespace Utopia

def slash : Byte := 0x2F

def dot : Byte := 0x2E

/-- The string in a buffer: what stands before its first NUL. -/
def cString (s : List Byte) : List Byte := s.takeWhile (· ≠ 0)

inductive VnodeType where
  | file
  | dir
deriving DecidableEq, Repr

/-- Nodes are numbered in the order of their allocation; the root is node 0. -/
abbrev NodePtr := ℕ

/-- `tarfs_node_t`, with the list of children as a list.  `data` is an offset into the
image, and a null pointer is `none`. -/
structure TarfsNode where
  type : VnodeType
  size : Word
  name : List Byte
  parent : Option NodePtr
  children : List NodePtr
  data : Option ℕ
  linkTarget : List Byte
  ino : NodePtr
  isSymlink : Bool
deriving DecidableEq, Repr

/-- The nodes of a mount, and how the calls of `malloc` for more of them end. -/
structure Tarfs where
  node : NodePtr → TarfsNode
  count : ℕ
  calls : ℕ
  granted : ℕ → Bool

namespace Tarfs

variable (s : Tarfs)

def root : NodePtr := 0

def setNode (n : NodePtr) (v : TarfsNode) : Tarfs :=
  { s with node := Function.update s.node n v }

/-- A node as `tarfs_create_node` sets it up. -/
def newNode (name : List Byte) (type : VnodeType) : TarfsNode where
  type := type
  size := 0
  name := cString (name.take 255)
  parent := none
  children := []
  data := none
  linkTarget := []
  ino := s.count
  isSymlink := false

/-- `tarfs_create_node`; the failure leaves the state as it is but for the call of
`malloc`. -/
def createNode (name : List Byte) (type : VnodeType) : Except Tarfs (NodePtr × Tarfs) :=
  if s.granted s.calls then
    .ok (s.count, { s.setNode s.count (s.newNode name type) with
      count := s.count + 1
      calls := s.calls + 1 })
  else .error { s with calls := s.calls + 1 }

/-- `tarfs_find_child`. -/
def findChild (parent : NodePtr) (name : List Byte) : Option NodePtr :=
  (s.node parent).children.find? fun c => (s.node c).name = name

/-- `tarfs_add_child`. -/
def addChild (parent child : NodePtr) : Tarfs :=
  let s := s.setNode parent
    { s.node parent with children := child :: (s.node parent).children }
  s.setNode child { s.node child with parent := some parent }

/-! ### Walking along a path -/

/-- The root that the parents of a node lead to; `none` when they lead nowhere. -/
def top : ℕ → NodePtr → Option NodePtr
  | fuel, n =>
      match (s.node n).parent, fuel with
      | none, _ => some n
      | some _, 0 => none
      | some p, fuel + 1 => top fuel p

/-- A round of the loop of `tarfs_walk`. -/
def walkStep (follow : NodePtr → Option NodePtr) (cur : NodePtr) (comp : List Byte) :
    Option NodePtr :=
  if (s.node cur).type ≠ .dir then none
  else if comp = [dot] then some cur
  else if comp = [dot, dot] then some ((s.node cur).parent.getD cur)
  else (s.findChild cur comp).bind follow

/-- `tarfs_walk`, with the function that it calls for each child. -/
def walkWith (follow : NodePtr → Option NodePtr) (start : NodePtr) (path : List Byte) :
    Option NodePtr :=
  (if path.head? = some slash then s.top s.count start else some start).bind fun cur =>
    foldComponents slash (s.walkStep follow) cur [] path

/-- `tarfs_follow` where `left` more symlinks may be followed. -/
def follow : ℕ → NodePtr → Option NodePtr
  | 0, n => if (s.node n).isSymlink then none else some n
  | left + 1, n =>
      if (s.node n).isSymlink then
        (s.node n).parent.bind fun p => s.walkWith (follow left) p (s.node n).linkTarget
      else some n

def maxSymlinkDepth : ℕ := 8

/-- `tarfs_walk` at depth 0. -/
def walk (start : NodePtr) (path : List Byte) : Option NodePtr :=
  s.walkWith (s.follow maxSymlinkDepth) start path

/-- `tarfs_lookup`. -/
def lookup (parent : NodePtr) (name : List Byte) : Option NodePtr :=
  if (s.node parent).type ≠ .dir then none
  else (s.findChild parent name).bind (s.follow maxSymlinkDepth)

end Tarfs

/-! ### Archives -/

/-- A header block, `tar_header_t`. -/
abbrev TarHeader := List Byte

namespace TarHeader

variable (hdr : TarHeader)

def name : List Byte := hdr.take 100

def size : List Byte := (hdr.drop 124).take 12

def typeflag : Byte := hdr.getD 156 0

def linkname : List Byte := (hdr.drop 157).take 100

def namePrefix : List Byte := (hdr.drop 345).take 155

end TarHeader

/-- The octal digits at the start of a field. -/
def tarfsOct2u64 (field : List Byte) : Word :=
  (field.takeWhile fun b => 0x30 ≤ b ∧ b ≤ 0x37).foldl
    (fun v b => (v <<< 3) + (b - 0x30).setWidth 64) 0

def tarfsAlignUp (n : Word) : Word := (n + 511) &&& ~~~511

def tarfsBlockIsZero (b : List Byte) : Bool := b.all (· = 0)

/-- The loop that drops leading `./`. -/
def stripDots : List Byte → List Byte
  | [] => []
  | [b] => [b]
  | b :: b' :: rest => if b = dot ∧ b' = slash then stripDots rest else b :: b' :: rest

def tarfsStrip (p : List Byte) : List Byte :=
  (stripDots (p.rdropWhile (· = slash))).dropWhile (· = slash)

/-- `tarfs_build_path` with a buffer of `cap` bytes. -/
def tarfsBuildPath (hdr : TarHeader) (cap : ℕ) : List Byte :=
  let pre := cString hdr.namePrefix
  let out := if pre = [] then [] else (pre ++ [slash]).take cap
  out ++ (cString hdr.name).take (cap - out.length)

namespace Tarfs

variable (s : Tarfs)

/-- A round of the loop of `tarfs_resolve_dir_path`. -/
def resolveStep (cur : Tarfs × NodePtr) (comp : List Byte) : Except Tarfs (Tarfs × NodePtr) :=
  match cur.1.findChild cur.2 comp with
  | some child => .ok (cur.1, child)
  | none => do
      let (child, s) ← cur.1.createNode comp .dir
      return (s.addChild cur.2 child, child)

/-- `tarfs_resolve_dir_path`. -/
def resolveDirPath (path : List Byte) : Except Tarfs (Tarfs × NodePtr) :=
  foldComponents slash resolveStep (s, root) [] path

/-- The new node of `tarfs_add_entry`, before it gets its parent. -/
def entryNode (base : List Byte) (hdr : TarHeader) (data : ℕ) (size : Word) :
    Except Tarfs (NodePtr × Tarfs) :=
  if hdr.typeflag = 0x35 then s.createNode base .dir
  else if hdr.typeflag = 0x32 then do
    let (n, s) ← s.createNode base .file
    return (n, s.setNode n { s.node n with
      isSymlink := true
      linkTarget := (cString hdr.linkname).take 255 })
  else if hdr.typeflag = 0x31 then
    match s.walk root (tarfsStrip (cString hdr.linkname)) with
    | none => .error s
    | some t =>
        if (s.node t).type = .dir then .error s
        else do
          let target := s.node t
          let (n, s) ← s.createNode base target.type
          return (n, s.setNode n { s.node n with
            size := target.size
            data := target.data
            ino := target.ino })
  else do
    let (n, s) ← s.createNode base .file
    return (n, s.setNode n { s.node n with data := some data, size := size })

/-- `tarfs_add_entry`. -/
def addEntry (parent : NodePtr) (base : List Byte) (hdr : TarHeader) (data : ℕ) (size : Word) :
    Tarfs :=
  match s.entryNode base hdr data size with
  | .ok (n, s) => s.addChild parent n
  | .error s => s

/-- The part of the loop of `tarfs_parse_archive` for the entries that become nodes. -/
def parseEntry (hdr : TarHeader) (data : ℕ) (size : Word) : Tarfs :=
  let p := tarfsStrip (tarfsBuildPath hdr 256)
  let base := p.rtakeWhile (· ≠ slash)
  if base = [] then s
  else
    match s.resolveDirPath (p.rdropWhile (· ≠ slash)).dropLast with
    | .error s => s
    | .ok (s, parent) =>
        if (s.findChild parent base).isNone then s.addEntry parent base hdr data size else s

/-- A round of the loop of `tarfs_parse_archive`: the next offset and the state, or
`none` where the loop ends. -/
def parseStep (image : List Byte) (offset : Word) : Option (Word × Tarfs) :=
  let imageSize := BitVec.ofNat 64 image.length
  if imageSize < offset + 512 then none
  else
    let hdr : TarHeader := (image.drop offset.toNat).take 512
    if tarfsBlockIsZero hdr then none
    else
      let t := hdr.typeflag
      let offset := offset + 512
      let size := if t = 0x31 ∨ t = 0x32 then 0 else tarfsOct2u64 hdr.size
      if imageSize < offset + size then none
      else
        some (offset + tarfsAlignUp size,
          if t = 0 ∨ t = 0x30 ∨ t = 0x31 ∨ t = 0x32 ∨ t = 0x35 then
            s.parseEntry hdr offset.toNat size
          else s)

/-- The loop of `tarfs_parse_archive`; `none` when it does not end within `fuel`
rounds. -/
def parseLoop (image : List Byte) : ℕ → Word → Tarfs → Option Tarfs
  | 0, _, _ => none
  | fuel + 1, offset, s =>
      (s.parseStep image offset).elim (some s) fun r => parseLoop image fuel r.1 r.2

/-- `tarfs_parse_archive`. -/
def parseArchive (image : List Byte) : Option Tarfs :=
  if image.length < 512 then some s else parseLoop image (image.length / 512 + 1) 0 s

/-- Before the first allocation. -/
def empty (granted : ℕ → Bool) : Tarfs :=
  ⟨fun _ => ⟨.file, 0, [], none, [], none, [], 0, false⟩, 0, 0, granted⟩

/-- `tarfs_mount`: the file system whose root is node 0, or the failure. -/
def mount (granted : ℕ → Bool) (image : List Byte) : Option (Except Tarfs Tarfs) :=
  match (empty granted).createNode [] .dir with
  | .error s => some (.error s)
  | .ok (_, s) => (s.parseArchive image).map .ok

end Tarfs

end Utopia
