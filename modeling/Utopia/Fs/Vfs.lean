/-
Path lookup of `fs/vfs.c`, over the `lookup` operation of the mounted file system.
-/
import Utopia.Fs.Tarfs

namespace Utopia

variable {V : Type} {lookup : V → List Byte → Option V} {root cur : V}

/-- `vfs_next_token`: the token, as far as its buffer goes, and the rest of the path. -/
def vfsNextToken (path : List Byte) : List Byte × List Byte :=
  let path := path.dropWhile (· = slash)
  ((path.takeWhile (· ≠ slash)).take 127, path.dropWhile (· ≠ slash))

/-- The loop of `vfs_lookup`. -/
def vfsLoop (lookup : V → List Byte → Option V) (root : V) : ℕ → V → List Byte → Option V
  | _, cur, [] => some cur
  | 0, _, _ :: _ => none
  | fuel + 1, cur, b :: path =>
      let (token, rest) := vfsNextToken (b :: path)
      if token = [] then vfsLoop lookup root fuel cur rest
      else if token = [dot] then vfsLoop lookup root fuel root rest
      else (lookup cur token).bind fun next => vfsLoop lookup root fuel next rest

/-- The start of a relative path that `vfs_lookup` skips. -/
def skipDot : List Byte → List Byte
  | [b] => if b = dot then [] else [b]
  | b :: b' :: rest => if b = dot ∧ b' = slash then rest else b :: b' :: rest
  | [] => []

/-- `vfs_lookup` with the root of the first mount, if there is one.  A path is a C
string, so it has no NUL in it. -/
def vfsLookup (lookup : V → List Byte → Option V) (root : Option V) (path : List Byte) :
    Option V :=
  let path := if path.head? = some slash then path else skipDot path
  root.bind fun root => vfsLoop lookup root path.length root path

/-- What `vfs_lookup` does with one component. -/
def vfsStep (lookup : V → List Byte → Option V) (root : V) (cur : V) (comp : List Byte) :
    Option V :=
  if comp = [dot] then some root else lookup cur (comp.take 127)

theorem components_dropWhile_slash (path : List Byte) :
    components slash (path.dropWhile (· = slash)) = components slash path := by
  induction path with
  | nil => rfl
  | cons b path ih =>
      rw [List.dropWhile_cons]
      split_ifs with hb
      · obtain rfl : b = slash := by simpa using hb
        rw [ih, components_sep]
      · rfl

theorem not_of_dropWhile_eq_cons {p : Byte → Bool} {path rest : List Byte} {d : Byte}
    (h : path.dropWhile p = d :: rest) : p d = false := by
  have hhead := List.head?_dropWhile_not p path
  rw [h] at hhead
  exact hhead

theorem take_eq_singleton {n : ℕ} {c : List Byte} {b : Byte} (hn : 1 < n) :
    c.take n = [b] ↔ c = [b] := by
  refine ⟨fun h => ?_, fun h => by rw [h, List.take_of_length_le (by simpa using hn.le)]⟩
  have hlen := congrArg List.length h
  rw [List.length_take, List.length_singleton] at hlen
  rwa [List.take_of_length_le (by omega)] at h

/-- The first component, and the components of the rest. -/
theorem components_eq_cons {b : Byte} (path : List Byte) (hb : b ≠ slash) :
    components slash (b :: path) = (b :: path).takeWhile (· ≠ slash) ::
      components slash ((b :: path).dropWhile (· ≠ slash)) := by
  have hcomp : IsComponent slash ((b :: path).takeWhile (· ≠ slash)) := by
    refine ⟨by simp [hb], fun hmem => ?_⟩
    simpa using List.mem_takeWhile_imp hmem
  conv_lhs => rw [← List.takeWhile_append_dropWhile (p := (· ≠ slash)) (l := b :: path)]
  cases hrest : (b :: path).dropWhile (· ≠ slash) with
  | nil => rw [List.append_nil, components_component hcomp, components_nil]
  | cons d rest =>
      have hd : d = slash := by simpa using not_of_dropWhile_eq_cons hrest
      rw [hd, components_append_sep _ hcomp, components_sep]

/-- The loop goes through the components, each cut to the size of the token buffer. -/
theorem vfsLoop_eq (fuel : ℕ) (cur : V) (path : List Byte) (hlen : path.length ≤ fuel) :
    vfsLoop lookup root fuel cur path =
      (components slash path).foldlM (vfsStep lookup root) cur := by
  induction fuel generalizing cur path with
  | zero =>
      obtain rfl : path = [] := List.length_eq_zero_iff.mp (Nat.le_zero.mp hlen)
      rw [vfsLoop, components_nil]
      rfl
  | succ fuel ih =>
      cases path with
      | nil =>
          rw [vfsLoop, components_nil]
          rfl
      | cons b path =>
          rw [vfsLoop, vfsNextToken]
          dsimp only
          rw [← components_dropWhile_slash (b :: path)]
          have hskip := List.length_dropWhile_le (· = slash) (b :: path)
          cases hq : (b :: path).dropWhile (· = slash) with
          | nil => simp [ih]
          | cons d q =>
              have hd : d ≠ slash := by simpa using not_of_dropWhile_eq_cons hq
              have hrest := List.length_dropWhile_le (· ≠ slash) q
              have hshort : ((d :: q).dropWhile (· ≠ slash)).length ≤ fuel := by
                rw [List.dropWhile_cons_of_pos (by simpa using hd)]
                rw [hq, List.length_cons] at hskip
                omega
              rw [components_eq_cons q hd, List.foldlM_cons, vfsStep]
              have hne : ((d :: q).takeWhile (· ≠ slash)).take 127 ≠ [] := by
                simp [hd]
              rw [if_neg hne]
              simp only [take_eq_singleton (show 1 < 127 by decide)]
              split_ifs
              · exact ih root _ hshort
              · exact bind_congr fun next => ih next _ hshort

end Utopia
