import WordModel.Library.Follow
import Mathlib.Data.List.AList
import Mathlib.Tactic.Push

/-! The graph under the context tree: vertices are numbered as they are added,
each with its out-edges in order of insertion and, once split, a subtree that
finds a child by its token. -/

namespace WordModel.ContextTree

open Follow

abbrev Subtree := AList (fun _ : ℕ => ℕ)

/-- `btree_map::insert`: an entry that is there already is kept. -/
def Subtree.insertNew (s : Subtree) (token : ℕ) (v : ℕ) : Subtree :=
  if token ∈ s then s else AList.insert token v s

structure VertexProperty where
  id : ℕ := 0
  token : ℕ := 0
  subtree : Option Subtree := none
  deriving DecidableEq

structure StoredVertex extends VertexProperty where
  outEdges : List ℕ := []
  deriving DecidableEq

abbrev Graph := List StoredVertex

/-- The degree at which a vertex is split, and the vertex that is read through the
past-the-end iterator in each round of the split's removal loop. -/
structure Template where
  maxDegree : ℕ
  two_le : 2 ≤ maxDegree
  pastEnd : Graph → ℕ → ℕ → ℕ

def maxDegreeDefault : ℕ := 10

def Template.ofDefault (pastEnd : Graph → ℕ → ℕ → ℕ) : Template :=
  ⟨maxDegreeDefault, by decide, pastEnd⟩

def Graph.node (g : Graph) (v : ℕ) : StoredVertex := g.getD v {}

def descend (g : Graph) (v : ℕ) (token : ℕ) : Option ℕ :=
  match (g.node v).subtree with
  | some s => s.lookup token
  | none => (g.node v).outEdges.find? (fun u => (g.node u).token == token)

def Graph.addEdge (g : Graph) (v u : ℕ) : Graph :=
  g.modify v (fun n => { n with outEdges := n.outEdges ++ [u] })

def Graph.removeEdge (g : Graph) (v u : ℕ) : Graph :=
  g.modify v (fun n => { n with outEdges := n.outEdges.filter (· ≠ u) })

def Graph.setSubtree (g : Graph) (v : ℕ) (s : Subtree) : Graph :=
  g.modify v (fun n => { n with subtree := some s })

section

variable (tp : Template)

def splitSubtree (g : Graph) (v : ℕ) : Subtree :=
  (g.node v).outEdges.foldl (fun s u => Subtree.insertNew s (g.node u).token u) ∅

-- The removal loop dereferences `target`, which the loop before has left at its end.
def splitVertex (g : Graph) (v : ℕ) : Graph :=
  (List.range tp.maxDegree).foldl (fun g i => g.removeEdge v (tp.pastEnd g v i))
    (g.setSubtree v (splitSubtree g v))

def addChild (g : Graph) (id : ℕ) (last : ℕ) (token : ℕ) : Graph :=
  let v := g.length
  let g := g ++ [{ id := id, token := token }]
  let g := if (g.node last).subtree = none ∧ (g.node last).outEdges.length = tp.maxDegree
    then splitVertex tp g last else g
  match (g.node last).subtree with
  | some s => g.setSubtree last (Subtree.insertNew s token v)
  | none => g.addEdge last v

end

def IsChild (g : Graph) (v u : ℕ) : Prop :=
  u ∈ (g.node v).outEdges ∨ ∃ s t, (g.node v).subtree = some s ∧ s.lookup t = some u

structure Graph.Ordered (g : Graph) : Prop where
  id_eq : ∀ v, v < g.length → (g.node v).id = v
  older : ∀ v u, IsChild g v u → v < u ∧ u < g.length
  filed : ∀ v s t u, (g.node v).subtree = some s → s.lookup t = some u → (g.node u).token = t

lemma Subtree.lookup_insertNew (s : Subtree) (t t' : ℕ) (v : ℕ) :
    AList.lookup t (s.insertNew t' v) = (s.lookup t).or (if t' = t then some v else none) := by
  by_cases hm : t' ∈ s
  · by_cases ht : t' = t
    · subst ht
      obtain ⟨u, hu⟩ := Option.isSome_iff_exists.mp (AList.lookup_isSome.mpr hm)
      simp [insertNew, hm, hu]
    · simp [insertNew, hm, ht]
  · by_cases ht : t' = t
    · subst ht
      simp [insertNew, hm, AList.lookup_eq_none.mpr hm]
    · simp [insertNew, hm, ht, AList.lookup_insert_ne (Ne.symm ht)]

lemma lookup_foldl_insertNew (key : ℕ → ℕ) (xs : List ℕ) (s : Subtree) (t : ℕ) :
    AList.lookup t (xs.foldl (fun s u => Subtree.insertNew s (key u) u) s) =
      (s.lookup t).or (xs.find? (fun u => key u == t)) := by
  induction xs generalizing s with
  | nil => simp
  | cons x xs ih =>
    rw [List.foldl_cons, ih, Subtree.lookup_insertNew, Option.or_assoc]
    congr 1
    by_cases hx : key x = t
    · simp [hx]
    · simp [hx]

end WordModel.ContextTree
