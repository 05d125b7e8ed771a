/-
The run of `tarfs_parse_archive`: the headers that its loop comes to, the nodes that they
add, and what the nodes keep from then on.
-/
import Utopia.Fs.TarfsTree
import Utopia.Lib.Outcome
import Mathlib.Logic.Relation

namespace Utopia

variable {hdr : TarHeader} {image : List Byte}

/-- The cleaned path of a header. -/
def TarHeader.entryPath (hdr : TarHeader) : List (List Byte) :=
  components slash (tarfsStrip (tarfsBuildPath hdr 256))

/-- The header at `offset`, if the loop makes an entry of it, and the place and size of the
data behind it. -/
def headerAt (image : List Byte) (offset : Word) : Option (TarHeader × ℕ × Word) :=
  let imageSize := BitVec.ofNat 64 image.length
  let hdr : TarHeader := (image.drop offset.toNat).take 512
  let t := hdr.typeflag
  let size := if t = 0x31 ∨ t = 0x32 then 0 else tarfsOct2u64 hdr.size
  if imageSize < offset + 512 ∨ tarfsBlockIsZero hdr ∨ imageSize < offset + 512 + size ∨
      ¬ (t = 0 ∨ t = 0x30 ∨ t = 0x31 ∨ t = 0x32 ∨ t = 0x35) then none
  else some (hdr, (offset + 512).toNat, size)

namespace Tarfs

/-! ### Cleaned paths -/

theorem stripDots_getLast? (p : List Byte) (h : stripDots p ≠ []) :
    (stripDots p).getLast? = p.getLast? := by
  obtain ⟨q, hq⟩ := stripDots_suffix p
  have happend := congrArg List.getLast? hq
  rw [List.getLast?_append] at happend
  rw [← happend]
  cases hlast : (stripDots p).getLast? with
  | none => exact absurd (List.getLast?_eq_none_iff.mp hlast) h
  | some b => rfl

/-- A stripped path does not end with a slash. -/
theorem tarfsStrip_getLast? (p : List Byte) : (tarfsStrip p).getLast? ≠ some slash := by
  intro hlast
  obtain ⟨q, hq⟩ : tarfsStrip p <:+ stripDots (p.rdropWhile (· = slash)) :=
    List.dropWhile_suffix _
  have hdots : (stripDots (p.rdropWhile (· = slash))).getLast? = some slash := by
    rw [← hq, List.getLast?_append, hlast]
    rfl
  have hne : stripDots (p.rdropWhile (· = slash)) ≠ [] := by
    intro hnil
    rw [hnil] at hdots
    cases hdots
  rw [stripDots_getLast? _ hne] at hdots
  have hne' : p.rdropWhile (· = slash) ≠ [] := by
    intro hnil
    rw [hnil] at hdots
    cases hdots
  have hnot := List.rdropWhile_last_not (· = slash) p hne'
  rw [List.getLast?_eq_some_getLast hne', Option.some.injEq] at hdots
  exact hnot (by simp [hdots])

/-- The components of a path are those in front of the last slash and the part behind it. -/
theorem components_base (p : List Byte) (hbase : p.rtakeWhile (· ≠ slash) ≠ []) :
    components slash p =
      components slash (p.rdropWhile (· ≠ slash)).dropLast ++ [p.rtakeWhile (· ≠ slash)] := by
  have hcomp : IsComponent slash (p.rtakeWhile (· ≠ slash)) := by
    refine ⟨hbase, fun hmem => ?_⟩
    simpa using List.mem_rtakeWhile_imp hmem
  have hsplit : p.rdropWhile (· ≠ slash) ++ p.rtakeWhile (· ≠ slash) = p :=
    List.rdropWhile_append_rtakeWhile
  by_cases hdir : p.rdropWhile (· ≠ slash) = []
  · rw [hdir, List.nil_append] at hsplit
    rw [hdir, hsplit]
    exact components_component (hsplit ▸ hcomp)
  · have hlast := List.rdropWhile_last_not (· ≠ slash) p hdir
    have hslash : (p.rdropWhile (· ≠ slash)).getLast hdir = slash := by simpa using hlast
    conv_lhs => rw [← hsplit, ← List.dropLast_append_getLast hdir, hslash, List.append_assoc]
    rw [List.singleton_append, components, componentsFrom_append_sep,
      components_component hcomp]
    rfl

theorem base_eq_nil {p : List Byte} (hbase : (tarfsStrip p).rtakeWhile (· ≠ slash) = []) :
    tarfsStrip p = [] := by
  by_contra hne
  have hlast := List.rtakeWhile_eq_nil_iff.mp hbase hne
  refine tarfsStrip_getLast? p ?_
  rw [List.getLast?_eq_some_getLast hne]
  simpa using hlast

/-! ### Entries -/

variable {s s' s'' : Tarfs} {n p : NodePtr} {c base : List Byte} {cs dir : List (List Byte)}
  {data : ℕ} {size offset offset' : Word} {v : TarfsNode} {granted : ℕ → Bool}

theorem isNodeName_of_mem (hc : c ∈ hdr.entryPath) : IsNodeName c :=
  isNodeName_of_isInfix (isComponent_components hc)
    ((isInfix_of_mem_components hc).trans (tarfsStrip_isInfix _))

/-- What a header with this cleaned path adds. -/
def addPath (s : Tarfs) (hdr : TarHeader) (data : ℕ) (size : Word) (dir : List (List Byte))
    (base : List Byte) : Tarfs :=
  match dir.foldlM resolveStep (s, root) with
  | .error s' => s'
  | .ok (s', parent) =>
      if (s'.findChild parent base).isNone then s'.addEntry parent base hdr data size else s'

theorem parseEntry_eq (s : Tarfs) (hdr : TarHeader) (data : ℕ) (size : Word) :
    hdr.entryPath = [] ∧ s.parseEntry hdr data size = s ∨
      ∃ dir base, hdr.entryPath = dir ++ [base] ∧
        s.parseEntry hdr data size = s.addPath hdr data size dir base := by
  rw [TarHeader.entryPath, Tarfs.parseEntry]
  by_cases hbase : (tarfsStrip (tarfsBuildPath hdr 256)).rtakeWhile (· ≠ slash) = []
  · left
    rw [if_pos hbase, base_eq_nil hbase]
    exact ⟨rfl, rfl⟩
  · right
    refine ⟨_, _, components_base _ hbase, ?_⟩
    rw [if_neg hbase, resolveDirPath, foldComponents_eq]
    unfold addPath components
    generalize List.foldlM resolveStep (s, root) _ = resolved
    cases resolved <;> rfl

theorem parseEntry_concat (hpath : hdr.entryPath = dir ++ [base]) :
    s.parseEntry hdr data size = s.addPath hdr data size dir base := by
  rcases s.parseEntry_eq hdr data size with ⟨hnil, -⟩ | ⟨dir', base', hpath', heq⟩
  · rw [hnil] at hpath
    exact absurd hpath (by simp)
  · obtain ⟨rfl, hbase⟩ := List.append_inj' (hpath.symm.trans hpath') rfl
    rw [heq, List.singleton_inj.mp hbase]

/-- A round of the loop makes an entry of the header, or goes past it. -/
theorem parseStep_eq (hstep : s.parseStep image offset = some (offset', s')) :
    (∃ hdr data size, headerAt image offset = some (hdr, data, size) ∧
        s' = s.parseEntry hdr data size) ∨
      (headerAt image offset = none ∧ s' = s) := by
  obtain ⟨block, hread⟩ : ∃ block : TarHeader, (image.drop offset.toNat).take 512 = block :=
    ⟨_, rfl⟩
  simp only [parseStep, hread] at hstep
  simp only [headerAt, hread]
  generalize (if block.typeflag = 0x31 ∨ block.typeflag = 0x32 then (0 : Word) else
    tarfsOct2u64 block.size) = blockSize at hstep ⊢
  split_ifs at hstep with hshort hzero hend hkind
  · obtain ⟨-, rfl⟩ := Prod.mk.inj (Option.some.inj hstep)
    refine Or.inl ⟨block, _, blockSize, if_neg ?_, rfl⟩
    rintro (hnone | hnone | hnone | hnone)
    exacts [hshort hnone, hzero hnone, hend hnone, hnone hkind]
  · obtain ⟨-, rfl⟩ := Prod.mk.inj (Option.some.inj hstep)
    exact Or.inr ⟨if_pos (Or.inr (Or.inr (Or.inr hkind))), rfl⟩

theorem parseStep_of_headerAt (s : Tarfs) (h : headerAt image offset = some (hdr, data, size)) :
    ∃ next, s.parseStep image offset = some (next, s.parseEntry hdr data size) := by
  obtain ⟨block, hread⟩ : ∃ block : TarHeader, (image.drop offset.toNat).take 512 = block :=
    ⟨_, rfl⟩
  simp only [headerAt, hread] at h
  simp only [parseStep, hread]
  generalize (if block.typeflag = 0x31 ∨ block.typeflag = 0x32 then (0 : Word) else
    tarfsOct2u64 block.size) = blockSize at h ⊢
  split_ifs at h with hnone
  obtain ⟨rfl, hrest⟩ := Prod.mk.inj (Option.some.inj h)
  obtain ⟨rfl, rfl⟩ := Prod.mk.inj hrest
  have hkind := not_not.mp fun hkind => hnone (Or.inr (Or.inr (Or.inr hkind)))
  rw [if_neg fun hshort => hnone (Or.inl hshort), if_neg fun hzero => hnone (Or.inr (Or.inl hzero)),
    if_neg fun hend => hnone (Or.inr (Or.inr (Or.inl hend))), if_pos hkind]
  exact ⟨_, rfl⟩

/-! ### One node more -/

/-- The fields of a new node: those of a directory on the way to an entry, or of an entry. -/
def Makes (image : List Byte) (s : Tarfs) (v : TarfsNode) : Prop :=
  (∃ c, v = s.newNode c .dir) ∨ ∃ offset hdr data size base,
    headerAt image offset = some (hdr, data, size) ∧ s.entryValue base hdr data size = some v

/-- The parser links a node, or `malloc` fails. -/
inductive AddsNode (image : List Byte) (s : Tarfs) : Tarfs → Prop
  | attach {p : NodePtr} {v : TarfsNode} (below : p < s.count) (name : IsNodeName v.name)
      (new : s.findChild p v.name = none) (leaf : v.children = []) (value : s.Makes image v) :
      AddsNode image s (s.attach p v)
  | fail : AddsNode image s s.failCall

abbrev AddsNodes (image : List Byte) : Tarfs → Tarfs → Prop :=
  Relation.ReflTransGen (AddsNode image)

theorem AddsNode.wellFormed (h : AddsNode image s s') (hs : s.WellFormed) : s'.WellFormed := by
  cases h with
  | attach below name new leaf _ => exact hs.attach below name new leaf
  | fail => exact hs.failCall

/-- What every new node keeps holds behind any number of them. -/
theorem AddsNodes.keeps {P : Tarfs → Prop} (h : AddsNodes image s s')
    (hstep : ∀ s s', s.WellFormed → P s → AddsNode image s s' → P s') (hs : s.WellFormed)
    (hP : P s) : s'.WellFormed ∧ P s' := by
  induction h with
  | refl => exact ⟨hs, hP⟩
  | tail _ hadd ih => exact ⟨hadd.wellFormed ih.1, hstep _ _ ih.1 ih.2 hadd⟩

theorem AddsNodes.wellFormed (h : AddsNodes image s s') (hs : s.WellFormed) : s'.WellFormed :=
  (h.keeps (P := fun _ => True) (fun _ _ _ _ _ => trivial) hs trivial).1

theorem resolve_adds (image : List Byte) (h : s.WellFormed) (hp : p < s.count)
    (hcs : ∀ c ∈ cs, IsNodeName c) :
    Outcome (AddsNodes image s) (fun r => AddsNodes image s r.1 ∧ r.2 < r.1.count)
      (cs.foldlM resolveStep (s, p)) := by
  induction cs generalizing s p with
  | nil => exact ⟨.refl, hp⟩
  | cons c cs ih =>
      have hc := hcs c List.mem_cons_self
      have hrest := fun d hd => hcs d (List.mem_cons_of_mem c hd)
      rw [List.foldlM_cons]
      rcases resolveStep_cases hp c with ⟨n, hfind, hstep⟩ | ⟨hnone, -, hstep⟩ | ⟨-, -, hstep⟩
      · rw [hstep]
        exact ih h (h.children p hp n (mem_of_findChild hfind).1).2.1 hrest
      · rw [hstep]
        have hname := name_newNode (s := s) hc .dir
        have hadd : AddsNode image s (s.attach p (s.newNode c .dir)) :=
          .attach hp (hname.symm ▸ hc) (hname.symm ▸ hnone) rfl (Or.inl ⟨c, rfl⟩)
        have hrun := ih (hadd.wellFormed h) (Nat.lt_succ_self _) hrest
        exact hrun.mono (fun s' hs' => .head hadd hs') fun r hr => ⟨.head hadd hr.1, hr.2⟩
      · rw [hstep]
        exact .single .fail

theorem parseEntry_adds (h : s.WellFormed) (hhdr : headerAt image offset = some (hdr, data, size)) :
    AddsNodes image s (s.parseEntry hdr data size) := by
  rcases s.parseEntry_eq hdr data size with ⟨-, heq⟩ | ⟨dir, base, hpath, heq⟩
  · rw [heq]
  · have hnames : ∀ c ∈ dir ++ [base], IsNodeName c := fun c hc =>
      @isNodeName_of_mem hdr _ (hpath ▸ hc)
    have hresolve := resolve_adds image h h.root_lt fun c hc => hnames c (List.mem_append_left _ hc)
    rw [heq, addPath]
    cases hrun : dir.foldlM resolveStep (s, root) with
    | error s' => exact hresolve.of_error hrun
    | ok r =>
        obtain ⟨s', parent⟩ := r
        obtain ⟨hadds, hparent⟩ := hresolve.of_ok hrun
        dsimp only
        split_ifs with hnew
        · have hbase := hnames base (by simp)
          rw [addEntry_eq hparent]
          cases hvalue : s'.entryValue base hdr data size with
          | none => exact hadds
          | some v =>
              obtain ⟨hname, hchildren⟩ := entryValue_keeps hvalue
              rw [name_newNode hbase] at hname
              dsimp only
              split_ifs
              · exact hadds.tail (.attach hparent (hname.symm ▸ hbase)
                  (hname.symm ▸ Option.isNone_iff_eq_none.mp hnew) hchildren
                  (Or.inr ⟨offset, hdr, data, size, base, hhdr, hvalue⟩))
              · exact hadds.tail .fail
        · exact hadds

theorem parseStep_adds (h : s.WellFormed) (hstep : s.parseStep image offset = some (offset', s')) :
    AddsNodes image s s' := by
  rcases parseStep_eq hstep with ⟨hdr, data, size, hhdr, rfl⟩ | ⟨-, rfl⟩
  · exact parseEntry_adds h hhdr
  · exact .refl

theorem parseLoop_adds {fuel : ℕ} (h : s.WellFormed)
    (hloop : parseLoop image fuel offset s = some s') : AddsNodes image s s' := by
  induction fuel generalizing s offset with
  | zero => cases hloop
  | succ fuel ih =>
      rw [parseLoop] at hloop
      cases hstep : s.parseStep image offset with
      | none =>
          rw [hstep] at hloop
          obtain rfl := Option.some.inj hloop
          exact .refl
      | some r =>
          rw [hstep] at hloop
          have hadds := parseStep_adds h hstep
          exact hadds.trans (ih (hadds.wellFormed h) hloop)

/-! ### Runs -/

/-- The states in which `tarfs_mount` comes to a header, with the offset of the header. -/
inductive Parsing (granted : ℕ → Bool) (image : List Byte) : Word → Tarfs → Prop
  | start {n : NodePtr} {s : Tarfs} (made : (empty granted).createNode [] .dir = .ok (n, s)) :
      Parsing granted image 0 s
  | next {offset offset' : Word} {s s' : Tarfs} (before : Parsing granted image offset s)
      (round : s.parseStep image offset = some (offset', s')) : Parsing granted image offset' s'

theorem Parsing.wellFormed (h : Parsing granted image offset s) : s.WellFormed := by
  induction h with
  | start made => exact initial_wellFormed made
  | next _ round ih => exact (parseStep_adds ih round).wellFormed ih

theorem parseStep_short (hshort : image.length < 512) : s.parseStep image 0 = none := by
  rw [parseStep]
  refine if_pos ?_
  rw [BitVec.lt_def, BitVec.toNat_ofNat, Nat.mod_eq_of_lt (by omega)]
  exact hshort

/-- The loop goes on from every state that it comes to. -/
theorem Parsing.loop (h : Parsing granted image offset s) (hmount : mount granted image = some (.ok s')) :
    ∃ fuel, parseLoop image fuel offset s = some s' := by
  induction h with
  | @start n s made =>
      rw [mount, made] at hmount
      obtain ⟨t, ht, hts⟩ := Option.map_eq_some_iff.mp hmount
      obtain rfl := Except.ok.inj hts
      rw [parseArchive] at ht
      split_ifs at ht with hshort
      · obtain rfl := Option.some.inj ht
        refine ⟨1, ?_⟩
        rw [parseLoop, parseStep_short hshort]
        rfl
      · exact ⟨_, ht⟩
  | next _ round ih =>
      obtain ⟨fuel, hfuel⟩ := ih
      cases fuel with
      | zero => cases hfuel
      | succ fuel =>
          rw [parseLoop, round] at hfuel
          exact ⟨fuel, hfuel⟩

theorem Parsing.adds (h : Parsing granted image offset s)
    (hmount : mount granted image = some (.ok s')) : AddsNodes image s s' := by
  obtain ⟨fuel, hfuel⟩ := h.loop hmount
  exact parseLoop_adds h.wellFormed hfuel

/-- A mount that succeeds has made the root. -/
theorem exists_start (hmount : mount granted image = some (.ok s)) :
    ∃ n s₀, (empty granted).createNode [] .dir = .ok (n, s₀) := by
  rw [mount] at hmount
  cases hroot : (empty granted).createNode [] .dir with
  | error s' =>
      rw [hroot] at hmount
      cases hmount
  | ok r => exact ⟨r.1, r.2, rfl⟩

/-- Whatever the archive and the calls of `malloc`, the mounted tree is well-formed. -/
theorem mount_wellFormed (hmount : mount granted image = some (.ok s)) : s.WellFormed := by
  obtain ⟨n, s₀, made⟩ := exists_start hmount
  have hstart : Parsing granted image 0 s₀ := .start made
  exact (hstart.adds hmount).wellFormed hstart.wellFormed

/-! ### What holds of every node -/

/-- The kinds of new nodes. -/
theorem Makes.cases (h : s.Makes image v) :
    (∃ c, v = s.newNode c .dir) ∨
      (∃ c target, v = { s.newNode c .file with isSymlink := true, linkTarget := target }) ∨
      (∃ c t, v = { s.newNode c (s.node t).type with
        size := (s.node t).size, data := (s.node t).data, ino := (s.node t).ino }) ∨
      ∃ c offset hdr data size, headerAt image offset = some (hdr, data, size) ∧
        v = { s.newNode c .file with data := some data, size := size } := by
  rcases h with ⟨c, rfl⟩ | ⟨offset, hdr, data, size, base, hhdr, hvalue⟩
  · exact Or.inl ⟨c, rfl⟩
  rw [entryValue] at hvalue
  split_ifs at hvalue with hdir hlink hhard
  · exact Or.inl ⟨base, (Option.some.inj hvalue).symm⟩
  · exact Or.inr (Or.inl ⟨base, _, (Option.some.inj hvalue).symm⟩)
  · cases hwalk : s.walk root (tarfsStrip (cString hdr.linkname)) with
    | none =>
        rw [hwalk] at hvalue
        cases hvalue
    | some t =>
        rw [hwalk] at hvalue
        dsimp only at hvalue
        split_ifs at hvalue
        exact Or.inr (Or.inr (Or.inl ⟨base, t, (Option.some.inj hvalue).symm⟩))
  · exact Or.inr (Or.inr (Or.inr ⟨base, offset, hdr, data, size, hhdr, (Option.some.inj hvalue).symm⟩))

/-- What does not look at the place of a node in the tree and holds of new nodes holds of all
nodes of a mounted archive. -/
theorem mount_nodes {P : TarfsNode → Prop}
    (hplace : ∀ v ps cs, P v → P { v with parent := ps, children := cs })
    (hmakes : ∀ (s : Tarfs) v, (∀ n, P (s.node n)) → s.Makes image v → P v)
    (hempty : P ((empty granted).node 0)) (hmount : mount granted image = some (.ok s)) (n : NodePtr) :
    P (s.node n) := by
  obtain ⟨k, s₀, made⟩ := exists_start hmount
  have hstart : Parsing granted image 0 s₀ := .start made
  have hroot : ∀ n, P (s₀.node n) := by
    intro n
    rw [createNode] at made
    split_ifs at made
    obtain ⟨-, rfl⟩ := Prod.mk.inj (Except.ok.inj made)
    change P (Function.update (empty granted).node _ _ n)
    rw [Function.update_apply]
    split_ifs
    · exact hmakes (empty granted) _ (fun _ => hempty) (Or.inl ⟨[], rfl⟩)
    · exact hempty
  refine ((hstart.adds hmount).keeps (P := fun s => ∀ n, P (s.node n)) ?_ hstart.wellFormed
    hroot).2 n
  intro s s' _ hall hadd n
  cases hadd with
  | fail => exact hall n
  | @attach p v _ _ _ _ value =>
      change P (Function.update (Function.update s.node p _) s.count _ n)
      rw [Function.update_apply, Function.update_apply]
      split_ifs with hn hp
      · exact hplace v (some p) v.children (hmakes s v hall value)
      · exact hplace (s.node p) (s.node p).parent _ (hall p)
      · exact hall n

/-! ### Archives without data -/

/-- A header with a path in the name field and no data behind it. -/
def plainHeader (name : List Byte) (typeflag : Byte) (linkname : List Byte) : TarHeader :=
  name ++ List.replicate (156 - name.length) 0 ++ typeflag :: linkname ++
    List.replicate (355 - linkname.length) 0

/-- The root alone. -/
def rootOnly : Tarfs :=
  { (empty fun _ => true).setNode root ((empty fun _ => true).newNode [] .dir) with
    count := 1
    calls := 1 }

theorem parsing_rootOnly (image : List Byte) : Parsing (fun _ => true) image 0 rootOnly :=
  .start rfl

theorem mount_eq (image : List Byte) :
    mount (fun _ => true) image = (rootOnly.parseArchive image).map .ok :=
  rfl

theorem Parsing.entry (h : Parsing granted image offset s)
    (hhdr : headerAt image offset = some (hdr, data, size))
    (hnext : (s.parseStep image offset).map Prod.fst = some offset') :
    Parsing granted image offset' (s.parseEntry hdr data size) := by
  obtain ⟨next, hstep⟩ := parseStep_of_headerAt s hhdr
  rw [hstep, Option.map_some, Option.some.injEq] at hnext
  subst hnext
  exact h.next hstep

end Tarfs

end Utopia
