/-
The nodes of a mount by their paths, while the parser builds the tree.
-/
import Utopia.Fs.TarfsTree
import Utopia.Fs.Ustar

namespace Utopia

/-- A node is what the tree has at its path. -/
def TarfsNode.Holds (image : List Byte) (v : TarfsNode) : FileContent → Prop
  | .dir => v.type = .dir
  | .file bytes => v.type = .file ∧ v.size.toNat = bytes.length ∧
      ∃ offset, v.data = some offset ∧ (image.drop offset).take bytes.length = bytes

namespace Tarfs

variable {s s' : Tarfs} {image : List Byte} {content : FilePath → Option FileContent}
  {path path' : NodePtr → FilePath} {K K' : Set FilePath} {n p : NodePtr} {q : FilePath}
  {c : List Byte}

/-- The nodes stand for the paths in `K`, with the content that `content` tells. -/
structure Built (s : Tarfs) (image : List Byte) (content : FilePath → Option FileContent)
    (path : NodePtr → FilePath) (K : Set FilePath) : Prop where
  wellFormed : s.WellFormed
  granted : ∀ k, s.granted k = true
  plain : ∀ n < s.count, (s.node n).isSymlink = false
  root : path root = []
  child : ∀ n < s.count, ∀ k ∈ (s.node n).children, path k = path n ++ [(s.node k).name]
  paths : ∀ q, q ∈ K ↔ ∃ n < s.count, path n = q
  holds : ∀ n < s.count, ∃ x, content (path n) = some x ∧ (s.node n).Holds image x

theorem Built.lt_of_mem_children (h : s.Built image content path K) (hn : n < s.count)
    (hp : p ∈ (s.node n).children) : p < s.count :=
  (h.wellFormed.children n hn p hp).2.1

/-- Every node but the root has a parent, whose path its own extends. -/
theorem Built.path_cases (h : s.Built image content path K) (hn : n < s.count) :
    n = Tarfs.root ∨ ∃ p < s.count, p < n ∧ n ∈ (s.node p).children ∧
      path n = path p ++ [(s.node n).name] := by
  by_cases hroot : n = Tarfs.root
  · exact Or.inl hroot
  · obtain ⟨p, hp, hmem⟩ := h.wellFormed.parent n hn hroot
    exact Or.inr ⟨p, hp, (h.wellFormed.children p hp n hmem).1, hmem, h.child p hp n hmem⟩

/-- Different nodes have different paths. -/
theorem Built.path_inj (h : s.Built image content path K) (hn : n < s.count) (hp : p < s.count)
    (heq : path n = path p) : n = p := by
  induction n using Nat.strong_induction_on generalizing p with
  | _ n ih =>
      rcases h.path_cases hn with rfl | ⟨m, hm, hlt, hmem, hpath⟩
      · rcases h.path_cases hp with rfl | ⟨k, -, -, -, hk⟩
        · rfl
        · rw [h.root, hk] at heq
          exact absurd heq (by simp)
      · rcases h.path_cases hp with rfl | ⟨k, hk, -, hkmem, hkpath⟩
        · rw [h.root, hpath] at heq
          exact absurd heq (by simp)
        · rw [hpath, hkpath] at heq
          obtain ⟨hparent, hname⟩ := List.append_inj' heq rfl
          obtain rfl := ih m hlt hm hk hparent
          exact h.wellFormed.siblings m hm n hmem p hkmem (List.singleton_inj.mp hname)

/-- Nodes are there for all paths above one that has a node. -/
theorem Built.mem_of_above (h : s.Built image content path K) {r : FilePath} (hr : r ∈ K)
    (hq : q <+: r) : q ∈ K := by
  obtain ⟨n, hn, rfl⟩ := (h.paths r).mp hr
  induction n using Nat.strong_induction_on with
  | _ n ih =>
      rcases h.path_cases hn with rfl | ⟨m, hm, hlt, -, hpath⟩
      · rw [h.root, List.prefix_nil] at hq
        rw [hq, ← h.root]
        exact hr
      · rw [hpath, List.prefix_concat_iff] at hq
        rcases hq with rfl | hq
        · rw [← hpath]
          exact hr
        · exact ih m hlt hm ((h.paths _).mpr ⟨m, hm, rfl⟩) hq

/-- The next node on the way down to a path. -/
theorem Built.exists_child (h : s.Built image content path K) (hp : p < s.count)
    (hn : n < s.count) (heq : path n = path p ++ c :: q) :
    ∃ k ∈ (s.node p).children, path k = path p ++ [c] := by
  induction n using Nat.strong_induction_on generalizing q with
  | _ n ih =>
      rcases h.path_cases hn with rfl | ⟨m, hm, hlt, hmem, hpath⟩
      · rw [h.root] at heq
        exact absurd heq (by simp)
      · rw [hpath] at heq
        rcases List.eq_nil_or_concat q with rfl | ⟨q', d, rfl⟩
        · obtain ⟨hparent, hname⟩ := List.append_inj' heq rfl
          obtain rfl := h.path_inj hm hp hparent
          exact ⟨n, hmem, by rw [hpath, List.singleton_inj.mp hname]⟩
        · rw [List.concat_eq_append, ← List.cons_append, ← List.append_assoc] at heq
          obtain ⟨hparent, -⟩ := List.append_inj' heq rfl
          exact ih m hlt hm hparent

theorem Built.findChild_eq_some (h : s.Built image content path K) (hp : p < s.count) :
    s.findChild p c = some n ↔ n < s.count ∧ path n = path p ++ [c] := by
  constructor
  · intro hfind
    obtain ⟨hmem, rfl⟩ := mem_of_findChild hfind
    exact ⟨h.lt_of_mem_children hp hmem, h.child p hp n hmem⟩
  · rintro ⟨hn, hpath⟩
    obtain ⟨k, hk, hkpath⟩ := h.exists_child hp hn hpath
    obtain rfl := h.path_inj hn (h.lt_of_mem_children hp hk) (hpath.trans hkpath.symm)
    have hname := h.child p hp n hk
    rw [hpath] at hname
    rw [List.singleton_inj.mp (List.append_cancel_left hname)]
    exact h.wellFormed.findChild_eq_some hp hk

/-! ### Walking -/

theorem Built.follow_eq (h : s.Built image content path K) (hn : n < s.count) (left : ℕ) :
    s.follow left n = some n := by
  cases left <;> simp [follow, h.plain n hn]

/-- Parents are directories. -/
theorem Built.type_of_child (h : s.Built image content path K)
    (hparent : ∀ p c, content (p ++ [c]) ≠ none → content p = some .dir) (hp : p < s.count)
    (hn : n ∈ (s.node p).children) : (s.node p).type = .dir := by
  obtain ⟨x, hx, -⟩ := h.holds n (h.lt_of_mem_children hp hn)
  rw [h.child p hp n hn] at hx
  have hdir := hparent _ _ (by rw [hx]; simp)
  obtain ⟨y, hy, hholds⟩ := h.holds p hp
  rw [hdir] at hy
  obtain rfl := Option.some.inj hy
  exact hholds

/-- Walking along names ends at the node with that path, if there is one. -/
theorem Built.walk_eq_some (h : s.Built image content path K)
    (hparent : ∀ p c, content (p ++ [c]) ≠ none → content p = some .dir)
    (hq : ∀ c ∈ q, c ≠ [dot] ∧ c ≠ [dot, dot]) (hp : p < s.count) (left : ℕ) :
    q.foldlM (s.walkStep (s.follow left)) p = some n ↔ n < s.count ∧ path n = path p ++ q := by
  induction q generalizing p with
  | nil =>
      rw [List.append_nil]
      refine ⟨fun hpn => ?_, fun ⟨hn, hpath⟩ => congrArg some (h.path_inj hp hn hpath.symm)⟩
      obtain rfl := Option.some.inj hpn
      exact ⟨hp, rfl⟩
  | cons c q ih =>
      obtain ⟨hdot, hdots⟩ := hq c List.mem_cons_self
      have hrest := fun d hd => hq d (List.mem_cons_of_mem c hd)
      have hnone : (∀ k ∈ (s.node p).children, path k ≠ path p ++ [c]) →
          ¬ (n < s.count ∧ path n = path p ++ c :: q) := by
        rintro hno ⟨hn, hpath⟩
        obtain ⟨k, hk, hkpath⟩ := h.exists_child hp hn hpath
        exact hno k hk hkpath
      rw [List.foldlM_cons, walkStep, if_neg hdot, if_neg hdots]
      cases hfind : s.findChild p c with
      | none =>
          refine iff_of_false ?_ (hnone fun k hk hkpath => ?_)
          · split_ifs <;> simp
          · rw [(h.findChild_eq_some hp).mpr ⟨h.lt_of_mem_children hp hk, hkpath⟩] at hfind
            cases hfind
      | some k =>
          obtain ⟨hk, hkpath⟩ := (h.findChild_eq_some hp).mp hfind
          rw [if_neg (not_not.mpr (h.type_of_child hparent hp (mem_of_findChild hfind).1)),
            Option.bind_some, h.follow_eq hk]
          refine (ih hrest hk).trans ?_
          rw [hkpath, List.append_assoc, List.singleton_append]

/-- `tarfs_walk` from the root along any string with these components. -/
theorem Built.walk_root_eq_some (h : s.Built image content path K)
    (hparent : ∀ p c, content (p ++ [c]) ≠ none → content p = some .dir) (str : List Byte)
    (hq : ∀ c ∈ components slash str, c ≠ [dot] ∧ c ≠ [dot, dot]) :
    s.walk Tarfs.root str = some n ↔ n < s.count ∧ path n = components slash str := by
  have hstart : (if str.head? = some slash then s.top s.count Tarfs.root else some Tarfs.root) =
      some Tarfs.root := by
    rw [h.wellFormed.top_root, ite_self]
  rw [walk, walkWith, hstart, Option.bind_some, foldComponents_eq]
  refine (h.walk_eq_some hparent hq h.wellFormed.root_lt _).trans ?_
  rw [h.root, List.nil_append, components]

/-! ### A new node -/

theorem Built.attach {v : TarfsNode} (h : s.Built image content path K) (hp : p < s.count)
    (hname : IsNodeName v.name) (hnew : s.findChild p v.name = none) (hchildren : v.children = [])
    (hplain : v.isSymlink = false)
    (hholds : ∃ x, content (path p ++ [v.name]) = some x ∧ v.Holds image x) :
    (s.attach p v).Built image content (Function.update path s.count (path p ++ [v.name]))
      (insert (path p ++ [v.name]) K) := by
  have hold : ∀ n, n < s.count →
      Function.update path s.count (path p ++ [v.name]) n = path n := fun n hn =>
    Function.update_of_ne hn.ne _ _
  have hcases : ∀ n, n < s.count + 1 → n = s.count ∨ n < s.count := fun n hn =>
    (Nat.lt_succ_iff_lt_or_eq.mp hn).symm
  refine ⟨h.wellFormed.attach hp hname hnew hchildren, h.granted, fun n hn => ?_, ?_,
    fun n hn k hk => ?_, fun q => ?_, fun n hn => ?_⟩
  · rcases hcases n hn with rfl | hn
    · rw [node_attach_new]
      exact hplain
    · exact (field_attach TarfsNode.isSymlink hp hn fun _ _ => rfl).trans (h.plain n hn)
  · rw [hold _ h.wellFormed.root_lt, h.root]
  · rcases hcases n hn with rfl | hn
    · rw [node_attach_new, hchildren] at hk
      cases hk
    · rw [hold n hn]
      rcases (mem_children_attach hp hn).mp hk with hk | ⟨rfl, rfl⟩
      · have hlt := h.lt_of_mem_children hn hk
        rw [hold k hlt, name_attach hp hlt]
        exact h.child n hn k hk
      · rw [Function.update_self, node_attach_new]
  · rw [Set.mem_insert_iff, h.paths]
    constructor
    · rintro (rfl | ⟨n, hn, rfl⟩)
      · exact ⟨s.count, Nat.lt_succ_self _, Function.update_self _ _ _⟩
      · exact ⟨n, Nat.lt_succ_of_lt hn, hold n hn⟩
    · rintro ⟨n, hn, rfl⟩
      rcases hcases n hn with rfl | hn
      · exact Or.inl (Function.update_self _ _ _)
      · exact Or.inr ⟨n, hn, (hold n hn).symm⟩
  · rcases hcases n hn with rfl | hn
    · obtain ⟨x, hx, hv⟩ := hholds
      refine ⟨x, by rw [Function.update_self, hx], ?_⟩
      rw [node_attach_new]
      cases x <;> exact hv
    · obtain ⟨x, hx, hv⟩ := h.holds n hn
      refine ⟨x, by rw [hold n hn, hx], ?_⟩
      have hsame : (((s.attach p v).node n).Holds image x) = ((s.node n).Holds image x) :=
        field_attach (fun w => w.Holds image x) hp hn fun w l => by cases x <;> rfl
      rw [hsame]
      exact hv

end Tarfs

end Utopia
