/-
Which entries of an archive `tarfs_walk` finds: those whose path leads through directories
alone.
-/
import Utopia.Fs.TarfsSized

namespace Utopia

namespace Tarfs

variable {s s' s'' s₀ : Tarfs} {n m p k : NodePtr} {c base : List Byte}
  {q r cs dir : List (List Byte)} {image : List Byte} {granted : ℕ → Bool} {hdr : TarHeader}
  {data : ℕ} {size offset : Word} {v : TarfsNode} {path : List Byte}

/-- The way down by names alone, as `tarfs_resolve_dir_path` goes. -/
def descend (s : Tarfs) (p : NodePtr) (q : List (List Byte)) : Option NodePtr :=
  q.foldlM s.findChild p

/-- All nodes above are directories. -/
inductive Visible (s : Tarfs) : NodePtr → Prop
  | root : Visible s root
  | child {n c : NodePtr} (above : Visible s n) (dir : (s.node n).type = .dir)
      (mem : c ∈ (s.node n).children) : Visible s c

/-- The nodes of `s` are still there, perhaps with more children. -/
structure Extends (s s' : Tarfs) : Prop where
  count : s.count ≤ s'.count
  node : ∀ n < s.count, { s'.node n with children := (s.node n).children } = s.node n
  children : ∀ n < s.count, ∀ c ∈ (s.node n).children, c ∈ (s'.node n).children

theorem Extends.refl (s : Tarfs) : s.Extends s :=
  ⟨le_rfl, fun _ _ => rfl, fun _ _ _ hc => hc⟩

theorem Extends.trans (h : s.Extends s') (h' : s'.Extends s'') : s.Extends s'' := by
  refine ⟨h.count.trans h'.count, fun n hn => ?_, fun n hn c hc => ?_⟩
  · have hnode := h'.node n (hn.trans_le h.count)
    rw [← h.node n hn, ← hnode]
  · exact h'.children n (hn.trans_le h.count) c (h.children n hn c hc)

theorem Extends.field {β : Type*} (h : s.Extends s') (f : TarfsNode → β)
    (hf : ∀ w l, f { w with children := l } = f w) (hn : n < s.count) :
    f (s'.node n) = f (s.node n) :=
  (hf (s'.node n) _).symm.trans (congrArg f (h.node n hn))

theorem extends_attach (hp : p < s.count) : s.Extends (s.attach p v) := by
  refine ⟨Nat.le_succ _, fun n hn => ?_, fun n hn c hc => ?_⟩
  · by_cases hnp : n = p
    · rw [hnp, node_attach_parent hp]
    · rw [node_attach_of_ne hn hnp]
  · exact (mem_children_attach hp hn).mpr (Or.inl hc)

theorem AddsNodes.extends (h : AddsNodes image s s') : s.Extends s' := by
  induction h with
  | refl => exact Extends.refl s
  | tail _ hadd ih =>
      cases hadd with
      | attach below _ _ _ _ => exact ih.trans (extends_attach below)
      | fail => exact ih.trans ⟨le_rfl, fun _ _ => rfl, fun _ _ _ hc => hc⟩

/-! ### Ways down -/

theorem descend_cons (c : List Byte) (q : List (List Byte)) :
    s.descend p (c :: q) = (s.findChild p c).bind fun n => s.descend n q :=
  List.foldlM_cons

theorem descend_concat : s.descend p (q ++ [c]) = (s.descend p q).bind fun n => s.findChild n c := by
  rw [descend, List.foldlM_append]
  exact bind_congr fun n => List.foldlM_cons.trans (bind_pure _)

theorem WellFormed.descend_lt (h : s.WellFormed) (hp : p < s.count)
    (hd : s.descend p q = some n) : n < s.count := by
  induction q generalizing p with
  | nil =>
      obtain rfl := Option.some.inj hd
      exact hp
  | cons c q ih =>
      rw [descend_cons, Option.bind_eq_some_iff] at hd
      obtain ⟨k, hk, hd⟩ := hd
      exact ih (h.children p hp k (mem_of_findChild hk).1).2.1 hd

theorem Extends.findChild (h : s.Extends s') (hs : s.WellFormed) (hs' : s'.WellFormed)
    (hp : p < s.count) (hfind : s.findChild p c = some n) : s'.findChild p c = some n := by
  obtain ⟨hmem, hname⟩ := mem_of_findChild hfind
  have hn := (hs.children p hp n hmem).2.1
  have hsame := h.field TarfsNode.name (fun _ _ => rfl) hn
  rw [← hname, ← hsame]
  exact hs'.findChild_eq_some (hp.trans_le h.count) (h.children p hp n hmem)

theorem Extends.descend (h : s.Extends s') (hs : s.WellFormed) (hs' : s'.WellFormed)
    (hp : p < s.count) (hd : s.descend p q = some n) : s'.descend p q = some n := by
  induction q generalizing p with
  | nil => exact hd
  | cons c q ih =>
      rw [descend_cons, Option.bind_eq_some_iff] at hd ⊢
      obtain ⟨k, hk, hd⟩ := hd
      exact ⟨k, h.findChild hs hs' hp hk,
        ih (hs.children p hp k (mem_of_findChild hk).1).2.1 hd⟩

/-! ### Nodes below directories -/

theorem Visible.lt (h : s.Visible n) (hs : s.WellFormed) : n < s.count := by
  induction h with
  | root => exact hs.root_lt
  | child _ _ mem ih => exact (hs.children _ ih _ mem).2.1

/-- The parent of such a node is a directory, and one of them. -/
theorem Visible.parent (h : s.Visible n) (hs : s.WellFormed)
    (hp : (s.node n).parent = some p) : s.Visible p ∧ (s.node p).type = .dir := by
  cases h with
  | root =>
      rw [hs.root_parent] at hp
      cases hp
  | child above dir mem =>
      have hparent := (hs.children _ (above.lt hs) _ mem).2.2
      rw [hp, Option.some.injEq] at hparent
      rw [hparent]
      exact ⟨above, dir⟩

theorem Visible.above (h : s.Visible n) (hs : s.WellFormed) (hp : p < s.count)
    (hn : n ∈ (s.node p).children) : s.Visible p ∧ (s.node p).type = .dir :=
  h.parent hs (hs.children p hp n hn).2.2

theorem Extends.visible (h : s.Extends s') (hs : s.WellFormed) (hn : s.Visible n) :
    s'.Visible n := by
  induction hn with
  | root => exact .root
  | child above dir mem ih =>
      have hlt := above.lt hs
      exact .child ih ((h.field TarfsNode.type (fun _ _ => rfl) hlt).trans dir)
        (h.children _ hlt _ mem)

/-- New nodes do not come above old ones. -/
theorem Extends.visible_old (h : s.Extends s') (hs : s.WellFormed) (hs' : s'.WellFormed)
    (hn : s'.Visible n) (hlt : n < s.count) : s.Visible n := by
  induction hn with
  | root => exact .root
  | @child k n above dir mem ih =>
      have hk := above.lt hs'
      obtain ⟨hkn, -, hparent⟩ := hs'.children k hk n mem
      have hold := hkn.trans hlt
      have hsame := h.field TarfsNode.parent (fun _ _ => rfl) hlt
      have hne : n ≠ Tarfs.root := by
        rintro rfl
        exact absurd hkn (Nat.not_lt_zero k)
      obtain ⟨k', hk', hmem⟩ := hs.parent n hlt hne
      have hparent' := (hs.children k' hk' n hmem).2.2
      rw [← hsame, hparent, Option.some.injEq] at hparent'
      subst hparent'
      exact .child (ih hold) ((h.field TarfsNode.type (fun _ _ => rfl) hold).symm.trans dir) hmem

/-- All nodes on the way to a directory below directories are directories. -/
theorem Visible.dir_of_descend (h : s.Visible n) (hs : s.WellFormed)
    (hdir : (s.node n).type = .dir) (hn : s.descend Tarfs.root (q ++ r) = some n)
    (hm : s.descend Tarfs.root q = some m) : (s.node m).type = .dir := by
  induction r using List.reverseRecOn generalizing n with
  | nil =>
      rw [List.append_nil, hm, Option.some.injEq] at hn
      rwa [hn]
  | append_singleton r c ih =>
      rw [← List.append_assoc, descend_concat, Option.bind_eq_some_iff] at hn
      obtain ⟨k, hk, hfind⟩ := hn
      obtain ⟨hvisible, hkdir⟩ := h.above hs (hs.descend_lt hs.root_lt hk)
        (mem_of_findChild hfind).1
      exact ih hvisible hkdir hk

/-! ### Resolving -/

/-- `tarfs_resolve_dir_path` ends at the node that the names lead to. -/
theorem resolve_descend (hs : s.WellFormed) (hp : p < s.count) (hcs : ∀ c ∈ cs, IsNodeName c)
    (hrun : cs.foldlM resolveStep (s, p) = .ok (s', n)) : s'.descend p cs = some n := by
  induction cs generalizing s p with
  | nil =>
      obtain ⟨rfl, rfl⟩ := Prod.mk.inj (Except.ok.inj hrun)
      rfl
  | cons c cs ih =>
      have hc := hcs c List.mem_cons_self
      have hrest := fun d hd => hcs d (List.mem_cons_of_mem c hd)
      have hadds := (resolve_adds [] hs hp hcs).of_ok hrun
      rw [List.foldlM_cons] at hrun
      rw [descend_cons]
      rcases resolveStep_cases hp c with ⟨k, hfind, hstep⟩ | ⟨hnone, -, hstep⟩ | ⟨-, -, hstep⟩ <;>
        rw [hstep] at hrun
      · have hk := (hs.children p hp k (mem_of_findChild hfind).1).2.1
        rw [hadds.1.extends.findChild hs (hadds.1.wellFormed hs) hp hfind]
        exact ih hs hk hrest hrun
      · have hname := name_newNode (s := s) hc .dir
        have hwf := hs.attach hp (hname.symm ▸ hc) (hname.symm ▸ hnone) rfl
        have hnew : s.count < (s.attach p (s.newNode c .dir)).count := Nat.lt_succ_self _
        have hlater := (resolve_adds [] hwf hnew hrest).of_ok hrun
        have hmem : s.count ∈ ((s.attach p (s.newNode c .dir)).node p).children :=
          (mem_children_attach hp hp).mpr (Or.inr ⟨rfl, rfl⟩)
        have hfound := hwf.findChild_eq_some (Nat.lt_succ_of_lt hp) hmem
        have hcount : ((s.attach p (s.newNode c .dir)).node s.count).name = c := by
          rw [node_attach_new]
          exact hname
        rw [hcount] at hfound
        rw [hlater.1.extends.findChild hwf (hlater.1.wellFormed hwf) (Nat.lt_succ_of_lt hp) hfound]
        exact ih hwf hnew hrest hrun
      · cases hrun

/-- No node on the way is there already and not a directory. -/
def DirectoriesOn (s : Tarfs) (p : NodePtr) (cs : List (List Byte)) : Prop :=
  ∀ q, q <+: cs → ∀ m, s.descend p q = some m → (s.node m).type = .dir

theorem DirectoriesOn.tail (h : s.DirectoriesOn p (c :: cs)) (hfind : s.findChild p c = some n) :
    s.DirectoriesOn n cs := by
  rintro q ⟨r, rfl⟩ m hm
  refine h (c :: q) ⟨r, rfl⟩ m ?_
  rw [descend_cons, hfind]
  exact hm

/-- A new node has nothing below it. -/
theorem directoriesOn_new (p : NodePtr) (cs : List (List Byte)) :
    (s.attach p (s.newNode c .dir)).DirectoriesOn s.count cs := by
  intro q _ m hm
  have hnode : (s.attach p (s.newNode c .dir)).node s.count =
      { s.newNode c .dir with parent := some p } := node_attach_new
  cases q with
  | nil =>
      obtain rfl := Option.some.inj hm
      rw [hnode]
      rfl
  | cons d q =>
      rw [descend_cons, findChild, hnode] at hm
      cases hm

theorem resolve_visible (hs : s.WellFormed) (hp : p < s.count) (hcs : ∀ c ∈ cs, IsNodeName c)
    (hvisible : s.Visible p) (hdirs : s.DirectoriesOn p cs)
    (hrun : cs.foldlM resolveStep (s, p) = .ok (s', n)) :
    s'.Visible n ∧ (s'.node n).type = .dir := by
  induction cs generalizing s p with
  | nil =>
      obtain ⟨rfl, rfl⟩ := Prod.mk.inj (Except.ok.inj hrun)
      exact ⟨hvisible, hdirs [] List.nil_prefix p rfl⟩
  | cons c cs ih =>
      have hc := hcs c List.mem_cons_self
      have hrest := fun d hd => hcs d (List.mem_cons_of_mem c hd)
      have hpdir := hdirs [] List.nil_prefix p rfl
      rw [List.foldlM_cons] at hrun
      rcases resolveStep_cases hp c with ⟨k, hfind, hstep⟩ | ⟨hnone, -, hstep⟩ | ⟨-, -, hstep⟩ <;>
        rw [hstep] at hrun
      · have hmem := (mem_of_findChild hfind).1
        exact ih hs (hs.children p hp k hmem).2.1 hrest (.child hvisible hpdir hmem)
          (hdirs.tail hfind) hrun
      · have hname := name_newNode (s := s) hc .dir
        have hwf := hs.attach hp (hname.symm ▸ hc) (hname.symm ▸ hnone) rfl
        have hadd : s.Extends (s.attach p (s.newNode c .dir)) := extends_attach hp
        have hmem : s.count ∈ ((s.attach p (s.newNode c .dir)).node p).children :=
          (mem_children_attach hp hp).mpr (Or.inr ⟨rfl, rfl⟩)
        have hpdir' := (hadd.field TarfsNode.type (fun _ _ => rfl) hp).trans hpdir
        exact ih hwf (Nat.lt_succ_self _) hrest
          (.child (hadd.visible hs hvisible) hpdir' hmem) (directoriesOn_new p cs) hrun
      · cases hrun

/-- The node under which an entry is linked is below directories only and one itself, exactly
where the nodes on its way that were there before are directories. -/
theorem resolve_visible_iff (hs : s.WellFormed) (hdir : ∀ c ∈ dir, IsNodeName c)
    (hrun : dir.foldlM resolveStep (s, Tarfs.root) = .ok (s', n)) :
    s'.Visible n ∧ (s'.node n).type = .dir ↔ s.DirectoriesOn Tarfs.root dir := by
  refine ⟨?_, fun hdirs => resolve_visible hs hs.root_lt hdir .root hdirs hrun⟩
  rintro ⟨hvisible, htype⟩ q ⟨r, rfl⟩ m hm
  have hadds := ((resolve_adds [] hs hs.root_lt hdir).of_ok hrun).1
  have hwf := hadds.wellFormed hs
  have hfinal := resolve_descend hs hs.root_lt hdir hrun
  have hm' := hadds.extends.descend hs hwf hs.root_lt hm
  have hold := hadds.extends.field TarfsNode.type (fun _ _ => rfl) (hs.descend_lt hs.root_lt hm)
  rw [← hold]
  exact hvisible.dir_of_descend hwf htype hfinal hm'

/-! ### Walking -/

theorem WellFormed.walk_root (h : s.WellFormed) (path : List Byte) :
    s.walk Tarfs.root path =
      (components slash path).foldlM (s.walkStep (s.follow maxSymlinkDepth)) Tarfs.root := by
  have hstart : (if path.head? = some slash then s.top s.count Tarfs.root else some Tarfs.root) =
      some Tarfs.root := by
    rw [h.top_root, ite_self]
  rw [walk, walkWith, hstart, Option.bind_some, foldComponents_eq, components]

theorem follow_of_not_link (hlink : (s.node n).isSymlink = false) (left : ℕ) :
    s.follow left n = some n := by
  cases left <;> simp [follow, hlink]

/-- Names lead `tarfs_walk` down through directories. -/
theorem walk_descend (hs : s.WellFormed) (hlinks : ∀ n, (s.node n).LinkIsFile)
    (hplain : ∀ c ∈ q, c ≠ [dot] ∧ c ≠ [dot, dot]) (hvisible : s.Visible n)
    (hdir : (s.node n).type = .dir) (hd : s.descend Tarfs.root q = some n) :
    q.foldlM (s.walkStep (s.follow maxSymlinkDepth)) Tarfs.root = some n := by
  induction q using List.reverseRecOn generalizing n with
  | nil => exact hd
  | append_singleton q c ih =>
      rw [descend_concat, Option.bind_eq_some_iff] at hd
      obtain ⟨k, hk, hfind⟩ := hd
      obtain ⟨hkvisible, hkdir⟩ := hvisible.above hs (hs.descend_lt hs.root_lt hk)
        (mem_of_findChild hfind).1
      obtain ⟨hdot, hdots⟩ := hplain c (by simp)
      have hlink : (s.node n).isSymlink = false := by
        by_contra hlink
        rw [hlinks n (by simpa using hlink)] at hdir
        cases hdir
      rw [List.foldlM_append, ih (fun d hd => hplain d (List.mem_append_left _ hd)) hkvisible hkdir hk,
        Option.bind_eq_bind, Option.bind_some, List.foldlM_cons, walkStep,
        if_neg (not_not.mpr hkdir), if_neg hdot, if_neg hdots, hfind, Option.bind_some,
        follow_of_not_link hlink]
      rfl

theorem Visible.top (h : s.Visible n) (hs : s.WellFormed) {fuel : ℕ}
    (htop : s.top fuel n = some m) : s.Visible m := by
  induction fuel generalizing n with
  | zero =>
      cases hparent : (s.node n).parent with
      | none =>
          simp only [Tarfs.top, hparent] at htop
          obtain rfl := Option.some.inj htop
          exact h
      | some p =>
          simp [Tarfs.top, hparent] at htop
  | succ fuel ih =>
      cases hparent : (s.node n).parent with
      | none =>
          simp only [Tarfs.top, hparent] at htop
          obtain rfl := Option.some.inj htop
          exact h
      | some p =>
          have hup : s.top (fuel + 1) n = s.top fuel p := by simp [Tarfs.top, hparent]
          rw [hup] at htop
          exact ih (h.parent hs hparent).1 htop

theorem Visible.walkStep {follow : NodePtr → Option NodePtr} (hs : s.WellFormed)
    (hfollow : ∀ n m, s.Visible n → follow n = some m → s.Visible m) (h : s.Visible n)
    (hstep : s.walkStep follow n c = some m) : s.Visible m := by
  rw [Tarfs.walkStep] at hstep
  split_ifs at hstep with hdir hdot hdots
  · obtain rfl := Option.some.inj hstep
    exact h
  · obtain rfl := Option.some.inj hstep
    cases hparent : (s.node n).parent with
    | none => exact h
    | some p => exact (h.parent hs hparent).1
  · rw [Option.bind_eq_some_iff] at hstep
    obtain ⟨k, hfind, hk⟩ := hstep
    exact hfollow k m (.child h (not_not.mp hdir) (mem_of_findChild hfind).1) hk

theorem Visible.walkWith {follow : NodePtr → Option NodePtr} (hs : s.WellFormed)
    (hfollow : ∀ n m, s.Visible n → follow n = some m → s.Visible m) (h : s.Visible n)
    (hwalk : s.walkWith follow n path = some m) : s.Visible m := by
  rw [Tarfs.walkWith, Option.bind_eq_some_iff] at hwalk
  obtain ⟨start, hstart, hwalk⟩ := hwalk
  have hvisible : s.Visible start := by
    split_ifs at hstart
    · exact h.top hs hstart
    · obtain rfl := Option.some.inj hstart
      exact h
  rw [foldComponents_eq] at hwalk
  generalize componentsFrom slash [] path = cs at hwalk
  clear hstart h
  induction cs generalizing start with
  | nil =>
      obtain rfl := Option.some.inj hwalk
      exact hvisible
  | cons c cs ih =>
      rw [List.foldlM_cons, Option.bind_eq_bind, Option.bind_eq_some_iff] at hwalk
      obtain ⟨k, hk, hwalk⟩ := hwalk
      exact ih k (hvisible.walkStep hs hfollow hk) hwalk

/-- Symlinks lead nowhere else. -/
theorem Visible.follow (hs : s.WellFormed) (left : ℕ) (h : s.Visible n)
    (hfollow : s.follow left n = some m) : s.Visible m := by
  induction left generalizing n m with
  | zero =>
      rw [Tarfs.follow] at hfollow
      split_ifs at hfollow
      obtain rfl := Option.some.inj hfollow
      exact h
  | succ left ih =>
      rw [Tarfs.follow] at hfollow
      split_ifs at hfollow
      · rw [Option.bind_eq_some_iff] at hfollow
        obtain ⟨p, hp, hwalk⟩ := hfollow
        exact (h.parent hs hp).1.walkWith hs (fun _ _ => ih) hwalk
      · obtain rfl := Option.some.inj hfollow
        exact h

theorem walk_visible (hs : s.WellFormed) (hwalk : s.walk Tarfs.root path = some n) :
    s.Visible n :=
  Visible.root.walkWith hs (fun _ _ h => h.follow hs maxSymlinkDepth) hwalk

/-! ### Linked nodes -/

/-- The loop links the node `n` for the header: a new child of the node that
`tarfs_resolve_dir_path` ends at. -/
def Links (s : Tarfs) (hdr : TarHeader) (data : ℕ) (size : Word) (n : NodePtr) : Prop :=
  ∃ dir base s' p, hdr.entryPath = dir ++ [base] ∧
    dir.foldlM resolveStep (s, Tarfs.root) = .ok (s', p) ∧
    n ∈ ((s.parseEntry hdr data size).node p).children ∧ n ∉ (s'.node p).children

/-- Looking the path up ends at the node, or at what `tarfs_follow` makes of it. -/
def Finds (s : Tarfs) (path : List Byte) (n : NodePtr) : Prop :=
  s.walk Tarfs.root path =
    if (s.node n).isSymlink then s.follow maxSymlinkDepth n else some n

theorem finds_iff : s.Finds path n ↔ s.walk Tarfs.root path = s.follow maxSymlinkDepth n := by
  rw [Finds]
  split_ifs with hlink
  · exact Iff.rfl
  · rw [follow_of_not_link (by simpa using hlink)]

/-- A linked node is the last one, and its cleaned path leads to it. -/
theorem Links.attach (hs : s.WellFormed) (h : s.Links hdr data size n) :
    ∃ dir base s' p v, hdr.entryPath = dir ++ [base] ∧
      dir.foldlM resolveStep (s, Tarfs.root) = .ok (s', p) ∧ p < s'.count ∧ n = s'.count ∧
      s.parseEntry hdr data size = s'.attach p v ∧
      (s.parseEntry hdr data size).findChild p base = some n := by
  obtain ⟨dir, base, s', p, hpath, hrun, hnew, hold⟩ := h
  have hnames : ∀ c ∈ dir ++ [base], IsNodeName c := fun c hc =>
    @isNodeName_of_mem hdr _ (hpath ▸ hc)
  have hdirs : ∀ c ∈ dir, IsNodeName c := fun c hc => hnames c (List.mem_append_left _ hc)
  obtain ⟨hadds, hp⟩ := (resolve_adds [] hs hs.root_lt hdirs).of_ok hrun
  have hwf := hadds.wellFormed hs
  have heq := @parseEntry_concat _ s _ _ data size hpath
  rw [addPath, hrun] at heq
  dsimp only at heq
  split_ifs at heq with hnone
  · rw [addEntry_eq hp] at heq
    cases hvalue : s'.entryValue base hdr data size with
    | none =>
        rw [hvalue] at heq
        rw [heq] at hnew
        exact absurd hnew hold
    | some v =>
        rw [hvalue] at heq
        dsimp only at heq
        split_ifs at heq
        · obtain ⟨hname, hchildren⟩ := entryValue_keeps hvalue
          rw [name_newNode (hnames base (by simp))] at hname
          rw [heq] at hnew ⊢
          obtain rfl : n = s'.count := by
            rcases (mem_children_attach hp hp).mp hnew with hmem | ⟨-, hn⟩
            · exact absurd hmem hold
            · exact hn
          refine ⟨dir, base, s', p, v, hpath, hrun, hp, rfl, rfl, ?_⟩
          have hwf' := hwf.attach hp (hname.symm ▸ hnames base (by simp))
            (hname.symm ▸ Option.isNone_iff_eq_none.mp hnone) hchildren
          have hfound := hwf'.findChild_eq_some (Nat.lt_succ_of_lt hp) hnew
          rw [node_attach_new] at hfound
          rwa [← hname]
        · rw [heq] at hnew
          exact absurd hnew hold
  · rw [heq] at hnew
    exact absurd hnew hold

/-- In the final tree a linked node is found by its cleaned path if nothing on the way was
there before and not a directory; a node that is no symlink is found only then. -/
theorem mount_finds_iff (hmount : mount granted image = some (.ok s))
    (hrun : Parsing granted image offset s₀)
    (hhdr : headerAt image offset = some (hdr, data, size)) (hlinks : s₀.Links hdr data size n)
    (hplain : ∀ c ∈ hdr.entryPath, c ≠ [dot] ∧ c ≠ [dot, dot]) :
    (s₀.DirectoriesOn Tarfs.root hdr.entryPath.dropLast →
        s.Finds (tarfsStrip (tarfsBuildPath hdr 256)) n) ∧
      ((s.node n).isSymlink = false → s.Finds (tarfsStrip (tarfsBuildPath hdr 256)) n →
        s₀.DirectoriesOn Tarfs.root hdr.entryPath.dropLast) := by
  have hs₀ := hrun.wellFormed
  obtain ⟨dir, base, s', p, v, hpath, hresolve, hp, rfl, hentry, hfind⟩ := hlinks.attach hs₀
  have hdirs : ∀ c ∈ dir, IsNodeName c := fun c hc =>
    @isNodeName_of_mem hdr _ (hpath ▸ List.mem_append_left _ hc)
  have hs' := (((resolve_adds image hs₀ hs₀.root_lt hdirs).of_ok hresolve).1).wellFormed hs₀
  -- the run goes on from the entry to the final tree
  obtain ⟨next, hstep⟩ := parseStep_of_headerAt s₀ hhdr
  have hafter := hrun.next hstep
  have hadds := hafter.adds hmount
  have hs₁ := hafter.wellFormed
  have hs := hadds.wellFormed hs₁
  have hext₁ : s'.Extends (s₀.parseEntry hdr data size) := hentry ▸ extends_attach hp
  have hext := hext₁.trans hadds.extends
  have hp₁ := hp.trans_le hext₁.count
  have hdescend := hext.descend hs' hs hs'.root_lt (resolve_descend hs₀ hs₀.root_lt hdirs hresolve)
  have hfound := hadds.extends.findChild hs₁ hs hp₁ hfind
  have htype := hext.field TarfsNode.type (fun _ _ => rfl) hp
  rw [hpath, List.dropLast_concat, finds_iff]
  refine ⟨fun hclear => ?_, fun hlink hwalk => ?_⟩
  · obtain ⟨hvisible, hdir⟩ := (resolve_visible_iff hs₀ hdirs hresolve).mpr hclear
    have hbase := hplain base (by rw [hpath]; simp)
    have hwalk := walk_descend hs (mount_linkIsFile hmount)
      (fun c hc => hplain c (by rw [hpath]; exact List.mem_append_left _ hc))
      (hext.visible hs' hvisible) (htype.trans hdir) hdescend
    rw [TarHeader.entryPath] at hpath
    rw [hs.walk_root, hpath, List.foldlM_append, hwalk, Option.bind_eq_bind, Option.bind_some,
      List.foldlM_cons, walkStep, if_neg (not_not.mpr (htype.trans hdir)), if_neg hbase.1,
      if_neg hbase.2, hfound, Option.bind_some]
    exact bind_pure _
  · rw [follow_of_not_link hlink] at hwalk
    obtain ⟨hvisible, hdir⟩ := (walk_visible hs hwalk).above hs (hp.trans_le hext.count)
      (mem_of_findChild hfound).1
    exact (resolve_visible_iff hs₀ hdirs hresolve).mp
      ⟨hext.visible_old hs' hs hvisible hp, htype.symm.trans hdir⟩

/-- An archive of a directory with a file. -/
def smallArchive : List Byte :=
  plainHeader [0x61, slash] 0x35 [] ++ plainHeader [0x61, slash, 0x62] 0x30 []

/-- The state of the loop before the file. -/
def afterDirectory : Tarfs :=
  rootOnly.parseEntry (plainHeader [0x61, slash] 0x35 []) 512 0

/-- The file is found by its path in the directory. -/
theorem mount_finds_iff_sample :
    ∃ s, mount (fun _ => true) smallArchive = some (.ok s) ∧
      afterDirectory.descend Tarfs.root [[0x61]] = some 1 ∧
      s.Finds [0x61, slash, 0x62] 2 := by
  obtain ⟨s, hs⟩ : ∃ s, rootOnly.parseArchive smallArchive = some s :=
    Option.isSome_iff_exists.mp (by decide +kernel)
  have hmount : mount (fun _ => true) smallArchive = some (.ok s) := by
    rw [mount_eq, hs]
    rfl
  have hdir : headerAt smallArchive 0 = some (plainHeader [0x61, slash] 0x35 [], 512, 0) := by
    decide +kernel
  have hrun : Parsing (fun _ => true) smallArchive 512 afterDirectory :=
    (parsing_rootOnly _).entry hdir (by decide +kernel)
  have hhdr : headerAt smallArchive 512 =
      some (plainHeader [0x61, slash, 0x62] 0x30 [], 1024, 0) := by decide +kernel
  have hpath : (plainHeader [0x61, slash, 0x62] 0x30 []).entryPath = [[0x61], [0x62]] := by
    decide +kernel
  have hfind : afterDirectory.findChild Tarfs.root [0x61] = some 1 := by decide +kernel
  have hlinks : afterDirectory.Links (plainHeader [0x61, slash, 0x62] 0x30 []) 1024 0 2 := by
    have hresolve :
        [[0x61]].foldlM resolveStep (afterDirectory, Tarfs.root) = .ok (afterDirectory, 1) := by
      rw [List.foldlM_cons, resolveStep, hfind]
      rfl
    exact ⟨[[0x61]], [0x62], afterDirectory, 1, hpath, hresolve, by decide +kernel,
      by decide +kernel⟩
  have hdescend : afterDirectory.descend Tarfs.root [[0x61]] = some 1 := by decide +kernel
  have hiff := mount_finds_iff hmount hrun hhdr hlinks (by rw [hpath]; decide)
  refine ⟨s, hmount, hdescend, hiff.1 ?_⟩
  -- the beginnings of the directory's path lead to the root and to the directory
  rw [hpath]
  intro q hq m hm
  have hbegins : q <+: [] ++ [[0x61]] := hq
  rcases List.prefix_concat_iff.mp hbegins with rfl | hnil
  · obtain rfl := Option.some.inj (hdescend.symm.trans hm)
    decide +kernel
  · obtain rfl := List.prefix_nil.mp hnil
    obtain rfl := Option.some.inj hm
    decide +kernel

def lostHeader : TarHeader := plainHeader [0x61, slash, 0x78] 0x30 []

/-- A directory `d`, a symlink `a` to it, and a file `a/x`. -/
def lostArchive : List Byte :=
  plainHeader [0x64] 0x35 [] ++ plainHeader [0x61] 0x32 [0x64] ++ lostHeader

/-- The state of the loop before the file. -/
def beforeLost : Tarfs :=
  (rootOnly.parseEntry (plainHeader [0x64] 0x35 []) 512 0).parseEntry
    (plainHeader [0x61] 0x32 [0x64]) 1024 0

theorem parsing_beforeLost : Parsing (fun _ => true) lostArchive 1024 beforeLost := by
  have hdir : headerAt lostArchive 0 = some (plainHeader [0x64] 0x35 [], 512, 0) := by
    decide +kernel
  have hlink : headerAt lostArchive 512 = some (plainHeader [0x61] 0x32 [0x64], 1024, 0) := by
    decide +kernel
  exact ((parsing_rootOnly _).entry hdir (by decide +kernel)).entry hlink (by decide +kernel)

/-- The file is linked under the symlink, and no path leads to it. -/
theorem mount_loses_entry :
    headerAt lostArchive 1024 = some (lostHeader, 1536, 0) ∧
      Parsing (fun _ => true) lostArchive 1024 beforeLost ∧ beforeLost.Links lostHeader 1536 0 3 ∧
      (∀ c ∈ lostHeader.entryPath, c ≠ [dot] ∧ c ≠ [dot, dot]) ∧
      ∃ s, mount (fun _ => true) lostArchive = some (.ok s) ∧
        ¬ s.Finds (tarfsStrip (tarfsBuildPath lostHeader 256)) 3 := by
  refine ⟨by decide +kernel, parsing_beforeLost, ?_, by decide +kernel, ?_⟩
  · have hfind : beforeLost.findChild Tarfs.root [0x61] = some 2 := by decide +kernel
    have hresolve : [[0x61]].foldlM resolveStep (beforeLost, Tarfs.root) = .ok (beforeLost, 2) := by
      rw [List.foldlM_cons, resolveStep, hfind]
      rfl
    exact ⟨[[0x61]], [0x78], beforeLost, 2, by decide +kernel, hresolve, by decide +kernel,
      by decide +kernel⟩
  · obtain ⟨s, hs⟩ : ∃ s, rootOnly.parseArchive lostArchive = some s :=
      Option.isSome_iff_exists.mp (by decide +kernel)
    have hlost : ((rootOnly.parseArchive lostArchive).map fun s =>
        (s.walk Tarfs.root (tarfsStrip (tarfsBuildPath lostHeader 256)), (s.node 3).isSymlink)) =
          some (none, false) := by decide +kernel
    rw [hs, Option.map_some, Option.some.injEq, Prod.mk.injEq] at hlost
    refine ⟨s, by rw [mount_eq, hs]; rfl, fun hfinds => ?_⟩
    rw [Finds, hlost.1, hlost.2] at hfinds
    cases hfinds

end Tarfs

end Utopia
