/-
The parser of `fs/tarfs.c` with the index of each access checked: a read or a write outside
of its buffer makes the result `none`, and so does a loop that does not end.
-/
import Utopia.Fs.TarfsSized
import Utopia.Lib.Buffer

namespace Utopia

/-- `tarfs_strnlen`. -/
def tarfsStrnlenAt (b : List Byte) (i max : ℕ) : Option ℕ := countWhile (· ≠ 0) b i max

/-- The loop of `tarfs_oct2u64`. -/
def tarfsOct2u64At (b : List Byte) (i : ℕ) (v : Word) : ℕ → Option Word
  | 0 => some v
  | len + 1 => b[i]?.bind fun c =>
      if 0x30 ≤ c ∧ c ≤ 0x37 then
        tarfsOct2u64At b (i + 1) ((v <<< 3) + (c - 0x30).setWidth 64) len
      else some v

/-- `tarfs_block_is_zero`. -/
def tarfsBlockIsZeroAt (b : List Byte) (i : ℕ) : Option Bool :=
  (countWhile (· = 0) b i 512).map fun n => decide (n = 512)

/-- The loop of `tarfs_strip` that drops leading `./`. -/
def stripDotsAt (b : List Byte) (i : ℕ) : ℕ → Option (ℕ × ℕ)
  | len + 2 => b[i]?.bind fun c =>
      if c = dot then
        b[i + 1]?.bind fun c' =>
          if c' = slash then stripDotsAt b (i + 2) len else some (i, len + 2)
      else some (i, len + 2)
  | len => some (i, len)

/-- `tarfs_strip`: where the cleaned path starts, and its length. -/
def tarfsStripAt (b : List Byte) (i len : ℕ) : Option (ℕ × ℕ) := do
  let len ← trimWhile (· = slash) b i len
  let (i, len) ← stripDotsAt b i len
  let n ← countWhile (· = slash) b i len
  return (i + n, len - n)

/-- `tarfs_copy_link_target`. -/
def tarfsCopyLinkTargetAt (dst src : List Byte) (i srcSize : ℕ) : Option (List Byte) := do
  let len ← tarfsStrnlenAt src i srcSize
  let len := if dst.length ≤ len then dst.length - 1 else len
  let dst ← copyAt dst 0 src i len
  storeAt dst len 0

/-- `tarfs_build_path` for the header at `hdr`: the buffer and the length of the path. -/
def tarfsBuildPathAt (image : List Byte) (hdr : ℕ) (out : List Byte) (cap : ℕ) :
    Option (List Byte × ℕ) := do
  let plen ← tarfsStrnlenAt image (hdr + 345) 155
  let nlen ← tarfsStrnlenAt image hdr 100
  let (out, len) ←
    if 0 < plen then do
      let len := min plen cap
      let out ← copyAt out 0 image (hdr + 345) len
      if len < cap then do
        let out ← storeAt out len slash
        pure (out, len + 1)
      else pure (out, len)
    else pure (out, 0)
  let n := min nlen (cap - len)
  let out ← copyAt out len image hdr n
  return (out, len + n)

namespace Tarfs

variable (s : Tarfs)

/-- `tarfs_create_node` with the name of `len` bytes from `i` on. -/
def createNodeAt (b : List Byte) (i len : ℕ) (type : VnodeType) :
    OptionT (Except Tarfs) (NodePtr × Tarfs) :=
  if s.granted s.calls then
    match copyAt (List.replicate 256 0) 0 b i (min len 255) with
    | none => failure
    | some name =>
        pure (s.count, { s.setNode s.count { s.newNode [] type with name := cString name } with
          count := s.count + 1
          calls := s.calls + 1 })
  else OptionT.lift (.error { s with calls := s.calls + 1 })

/-- The loop of `tarfs_find_child` over the children. -/
def findChildFrom (b : List Byte) (i len : ℕ) : List NodePtr → Option (Option NodePtr)
  | [] => some none
  | c :: rest =>
      if (s.node c).name.length = len then
        (readPart b i len).bind fun name =>
          if (s.node c).name = name then some (some c) else findChildFrom b i len rest
      else findChildFrom b i len rest

/-- `tarfs_find_child`. -/
def findChildAt (parent : NodePtr) (b : List Byte) (i len : ℕ) : Option (Option NodePtr) :=
  s.findChildFrom b i len (s.node parent).children

/-- A round of the loop of `tarfs_resolve_dir_path`. -/
def resolveStepAt (b : List Byte) (cur : Tarfs × NodePtr) (i len : ℕ) :
    OptionT (Except Tarfs) (Tarfs × NodePtr) :=
  match cur.1.findChildAt cur.2 b i len with
  | none => failure
  | some (some child) => pure (cur.1, child)
  | some none => do
      let (child, s) ← cur.1.createNodeAt b i len .dir
      return (s.addChild cur.2 child, child)

/-- `tarfs_resolve_dir_path`. -/
def resolveDirPathAt (b : List Byte) (i len : ℕ) : OptionT (Except Tarfs) (Tarfs × NodePtr) :=
  forComponents slash b (resolveStepAt b) (len + 1) i len (s, root)

/-- Whether a component is `.`. -/
def isDotAt (b : List Byte) (i len : ℕ) : Option Bool :=
  if len = 1 then b[i]?.map fun c => decide (c = dot) else some false

/-- Whether a component is `..`. -/
def isDotDotAt (b : List Byte) (i len : ℕ) : Option Bool :=
  if len = 2 then b[i]?.bind fun c =>
    if c = dot then b[i + 1]?.map fun c' => decide (c' = dot) else some false
  else some false

/-- A round of the loop of `tarfs_walk`. -/
def walkStepAt (follow : NodePtr → OptionT Option NodePtr) (b : List Byte) (cur : NodePtr)
    (i len : ℕ) : OptionT Option NodePtr :=
  if (s.node cur).type ≠ .dir then OptionT.lift none
  else do
    if ← checked (isDotAt b i len) then return cur
    if ← checked (isDotDotAt b i len) then return (s.node cur).parent.getD cur
    match ← checked (s.findChildAt cur b i len) with
    | none => OptionT.lift none
    | some child => follow child

/-- `tarfs_walk`, with the function that it calls for each child. -/
def walkWithAt (follow : NodePtr → OptionT Option NodePtr) (start : NodePtr) (b : List Byte)
    (i len : ℕ) : OptionT Option NodePtr := do
  let absolute ← checked (if 0 < len then b[i]?.map fun c => decide (c = slash) else some false)
  let cur ← if absolute then checked (s.top s.count start) else pure start
  forComponents slash b (s.walkStepAt follow b) (len + 1) i len cur

/-- `tarfs_follow`; the walk from a null pointer is an access outside. -/
def followAt : ℕ → NodePtr → OptionT Option NodePtr
  | 0, n => if (s.node n).isSymlink then OptionT.lift none else pure n
  | left + 1, n =>
      if (s.node n).isSymlink then
        match (s.node n).parent with
        | none => failure
        | some p =>
            s.walkWithAt (followAt left) p (s.node n).linkTarget 0 (s.node n).linkTarget.length
      else pure n

/-- `tarfs_walk` at depth 0. -/
def walkAt (start : NodePtr) (b : List Byte) (i len : ℕ) : OptionT Option NodePtr :=
  s.walkWithAt (s.followAt maxSymlinkDepth) start b i len

/-- The new node of `tarfs_add_entry`, before it gets its parent. -/
def entryNodeAt (b : List Byte) (i len : ℕ) (image : List Byte) (hdr data : ℕ) (size : Word) :
    OptionT (Except Tarfs) (NodePtr × Tarfs) := do
  let typeflag ← checked image[hdr + 156]?
  if typeflag = 0x35 then s.createNodeAt b i len .dir
  else if typeflag = 0x32 then do
    let (n, s) ← s.createNodeAt b i len .file
    let target ← checked (tarfsCopyLinkTargetAt (List.replicate 256 0) image (hdr + 157) 100)
    return (n, s.setNode n { s.node n with isSymlink := true, linkTarget := cString target })
  else if typeflag = 0x31 then do
    let llen ← checked (tarfsStrnlenAt image (hdr + 157) 100)
    let (lp, llen) ← checked (tarfsStripAt image (hdr + 157) llen)
    match (s.walkAt root image lp llen).run with
    | none => OptionT.lift (.error s)
    | some none => failure
    | some (some t) =>
        if (s.node t).type = .dir then OptionT.lift (.error s)
        else do
          let target := s.node t
          let (n, s) ← s.createNodeAt b i len target.type
          return (n, s.setNode n { s.node n with
            size := target.size
            data := target.data
            ino := target.ino })
  else do
    let (n, s) ← s.createNodeAt b i len .file
    return (n, s.setNode n { s.node n with data := some data, size := size })

/-- `tarfs_add_entry`. -/
def addEntryAt (parent : NodePtr) (b : List Byte) (i len : ℕ) (image : List Byte)
    (hdr data : ℕ) (size : Word) : Option Tarfs :=
  match (s.entryNodeAt b i len image hdr data size).run with
  | .ok none => none
  | .ok (some (n, s)) => some (s.addChild parent n)
  | .error s => some s

/-- The part of the loop of `tarfs_parse_archive` for the entries that become nodes.  `raw`
is the path buffer as the stack has it. -/
def parseEntryAt (raw image : List Byte) (hdr data : ℕ) (size : Word) : Option Tarfs := do
  let (raw, len) ← tarfsBuildPathAt image hdr raw raw.length
  let (p, plen) ← tarfsStripAt raw 0 len
  let split ← trimWhile (· ≠ slash) raw p plen
  if split < plen then
    match (s.resolveDirPathAt raw p (split - 1)).run with
    | .error s => return s
    | .ok none => none
    | .ok (some (s, parent)) =>
        match ← s.findChildAt parent raw (p + split) (plen - split) with
        | none => s.addEntryAt parent raw (p + split) (plen - split) image hdr data size
        | some _ => return s
  else return s

/-- A round of the loop of `tarfs_parse_archive`. -/
def parseStepAt (raw image : List Byte) (offset : Word) : Option (Option (Word × Tarfs)) :=
  let imageSize := BitVec.ofNat 64 image.length
  if imageSize < offset + 512 then some none
  else do
    let hdr := offset.toNat
    if ← tarfsBlockIsZeroAt image hdr then return none
    let size ← tarfsOct2u64At image (hdr + 124) 0 12
    let t ← image[hdr + 156]?
    let offset := offset + 512
    let size := if t = 0x31 ∨ t = 0x32 then 0 else size
    if imageSize < offset + size then return none
    let s ←
      if t = 0 ∨ t = 0x30 ∨ t = 0x31 ∨ t = 0x32 ∨ t = 0x35 then
        s.parseEntryAt raw image hdr offset.toNat size
      else pure s
    return some (offset + tarfsAlignUp size, s)

/-- The loop of `tarfs_parse_archive`.  `stack` is what the path buffer holds before the
round at an offset. -/
def parseLoopAt (stack : Word → List Byte) (image : List Byte) : ℕ → Word → Tarfs → Option Tarfs
  | 0, _, _ => none
  | fuel + 1, offset, s => (s.parseStepAt (stack offset) image offset).bind fun round =>
      round.elim (some s) fun r => parseLoopAt stack image fuel r.1 r.2

/-- `tarfs_parse_archive`. -/
def parseArchiveAt (stack : Word → List Byte) (image : List Byte) : Option Tarfs :=
  if image.length < 512 then some s else parseLoopAt stack image (image.length / 512 + 1) 0 s

/-- `tarfs_mount`. -/
def mountAt (granted : ℕ → Bool) (stack : Word → List Byte) (image : List Byte) :
    Option (Except Tarfs Tarfs) :=
  match ((empty granted).createNodeAt [0] 0 0 .dir).run with
  | .error s => some (.error s)
  | .ok none => none
  | .ok (some (_, s)) => (s.parseArchiveAt stack image).map .ok

end Tarfs

end Utopia
