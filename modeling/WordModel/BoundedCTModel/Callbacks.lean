import WordModel.BoundedCTModel.Basic
import WordModel.Library.Least
import Mathlib.Algebra.Ring.Int.Defs
import Mathlib.Algebra.GroupWithZero.Nat

/-! What the callbacks of one prediction, and of one settlement, do to the weights. -/

namespace WordModel.BoundedCTModel

open Checked ContextTree Least

variable (o : Overrun)

lemma startPredict_eq (m : Members) (data : List ℤ) :
    startPredict m data = .ok ({ m with prediction := 0 }, m.rootWeights) := by
  have hlen : (data.take m.rootWeights.length ++
      List.replicate (m.rootWeights.length - data.length) 0).length = m.rootWeights.length := by
    rw [List.length_append, List.length_take, List.length_replicate]
    omega
  rw [startPredict, copy_eq hlen, ok_bind, pure_eq_ok]

def Members.weight (m : Members) (v w : ℕ) : ℤ :=
  if v = rootNode then (m.rootWeights[w]?).getD 0
  else ((m.weights[v - 1]?).bind (·.lookup w)).getD 0

def Members.walkWeight (m : Members) (visited : List ℕ) (w : ℕ) : ℤ :=
  ((visited.filter (· ≠ rootNode)).map (fun v => m.weight v w)).sum

def Members.total (m : Members) (visited : List ℕ) (w : ℕ) : ℤ :=
  m.weight rootNode w + m.walkWeight visited w

lemma addWeights_getElem? {ws : List (Sigma fun _ : ℕ => ℤ)} (h : ws.NodupKeys) (data : List ℤ)
    (t : ℕ) : (ws.foldl (fun data w => data.modify w.1 (· + w.2)) data)[t]? =
      data[t]?.map (· + (ws.dlookup t).getD 0) := by
  induction ws generalizing data with
  | nil => simp
  | cons w ws ih =>
    obtain ⟨hnot, hnodup⟩ := List.nodupKeys_cons.mp h
    obtain ⟨k, x⟩ := w
    rw [List.foldl_cons, ih hnodup]
    by_cases hk : k = t
    · subst hk
      have hnone : ws.dlookup k = none := List.dlookup_eq_none.mpr hnot
      simp [hnone, Function.comp_def]
    · simp [List.getElem?_modify_ne _ _ hk, List.dlookup_cons_ne ws ⟨k, x⟩ (Ne.symm hk)]

lemma pushPredict_ok {m : Members} {node : ℕ} {data : List ℤ}
    (h : node ≠ rootNode → ∃ ws, m.weights[node - 1]? = some ws ∧
      ∀ k ∈ ws, k < data.length) :
    ∃ data', data'.length = data.length ∧
      (∀ t, data'[t]? = data[t]?.map (· + m.walkWeight [node] t)) ∧
      pushPredict m node data = .ok (m, data') := by
  by_cases hn : node = rootNode
  · exact ⟨data, rfl, by simp [Members.walkWeight, hn], by simp [pushPredict, hn]⟩
  · obtain ⟨ws, hws, hk⟩ := h hn
    have hloop := foldlM_ok (f := fun data w => update Container.contextData data w.1 (· + w.2))
      (g := fun data w => data.modify w.1 (· + w.2)) (fun d : List ℤ => d.length = data.length)
      (l := ws.entries) rfl (fun d w hw hd => by
        have hlt : w.1 < d.length := by
          rw [hd]
          exact hk w.1 (List.mem_map_of_mem hw)
        exact ⟨update_of_lt hlt _, by simpa using hd⟩)
    refine ⟨_, hloop.2, fun t => ?_, ?_⟩
    · have hweight : m.walkWeight [node] t = (ws.lookup t).getD 0 := by
        simp [Members.walkWeight, Members.weight, hn, hws]
      rw [addWeights_getElem? ws.nodupKeys, hweight]
      rfl
    · rw [pushPredict, if_pos hn, fetch_of_getElem? hws, ok_bind, hloop.1, ok_bind, pure_eq_ok]

lemma growRootWeights_length (mistakes n : ℕ) (rootWeights : List ℤ) :
    (growRootWeights mistakes n rootWeights).length = rootWeights.length + n := by
  induction n generalizing rootWeights with
  | zero => rfl
  | succ n ih =>
    rw [growRootWeights, ih, List.length_append, List.length_singleton]
    omega

def predicted (m : Members) (prediction : ℕ) : Members :=
  { m with
    prediction := prediction
    rootWeights := growRootWeights m.mistakes (m.tokenNumber - m.rootWeights.length)
      m.rootWeights }

lemma finishPredict_ok (m : Members) {data : List ℤ} (h : 0 < data.length) :
    ∃ least, Minimiser (fun t => data.getD t 0) data.length least ∧
      finishPredict m data = .ok (predicted m
        (if data.getD least 0 < m.mistakes then least else m.prediction), data) := by
  have hloop := foldlM_ok (f := fun (least : ℤ × ℕ) i => do
      let w ← fetch Container.contextData data i
      return if w < least.1 then (w, i) else least)
    (g := fun least i => if data.getD i 0 < least.1 then (data.getD i 0, i) else least)
    (fun _ : ℤ × ℕ => True) (l := List.range data.length)
    (b := ((m.mistakes : ℤ), m.prediction)) trivial (fun least i hi _ => by
      rw [List.mem_range] at hi
      rw [fetch_of_getElem? (List.getElem?_eq_getElem hi), ok_bind, pure_eq_ok]
      rw [show data.getD i 0 = data[i] by simp [hi]]
      exact ⟨rfl, trivial⟩)
  obtain ⟨least, hleast, he⟩ := scan_eq (d := fun t => data.getD t 0) h
    ((m.mistakes : ℤ), m.prediction)
  rw [scan] at he
  refine ⟨least, hleast, ?_⟩
  rw [finishPredict, hloop.1, ok_bind, he]
  by_cases hlt : data.getD least 0 < m.mistakes
  · rw [if_pos hlt, if_pos hlt]
    rfl
  · rw [if_neg hlt, if_neg hlt]
    rfl

def Predictable (m : Members) (visited : List ℕ) : Prop :=
  ∀ v ∈ visited, v ≠ rootNode → ∃ ws, m.weights[v - 1]? = some ws ∧
    ∀ k ∈ ws, k < m.rootWeights.length

lemma walkWeight_cons (m : Members) (v : ℕ) (visited : List ℕ) (w : ℕ) :
    m.walkWeight (v :: visited) w = m.walkWeight [v] w + m.walkWeight visited w := by
  by_cases hv : v = rootNode
  · simp [Members.walkWeight, hv]
  · simp [Members.walkWeight, hv]

lemma visitAll_pushPredict {m : Members} {visited : List ℕ} {data : List ℤ}
    (h : Predictable m visited) (hd : data.length = m.rootWeights.length) (i : ℕ) :
    ∃ data', data'.length = m.rootWeights.length ∧
      (∀ t, data'[t]? = data[t]?.map (· + m.walkWeight visited t)) ∧
      visitAll (visitor o) (visited.mapIdx (fun k v => .pushPredict v (i + k))) (m, data) =
        .ok (m, data') := by
  induction visited generalizing data i with
  | nil => exact ⟨data, hd, by simp [Members.walkWeight], rfl⟩
  | cons v visited ih =>
    obtain ⟨data', hlen, hsum, he⟩ := pushPredict_ok (fun hv => by
      rw [hd]
      exact h v (by simp) hv)
    obtain ⟨data'', hlen', hsum', he'⟩ := ih (fun u hu => h u (by simp [hu])) (hlen.trans hd)
      (i + 1)
    simp only [Nat.add_assoc, Nat.add_comm 1] at he'
    refine ⟨data'', hlen', fun t => ?_, ?_⟩
    · rw [hsum', hsum, Option.map_map]
      congr 1
      funext x
      rw [walkWeight_cons m v visited]
      exact Int.add_assoc _ _ _
    · simp only [visitAll, List.mapIdx_cons, List.foldlM_cons, visitor, he, ok_bind]
      exact he'

lemma visitAll_append {M ContextData : Type} (v : Visitor M ContextData)
    (xs ys : List Callback) (s : M × ContextData) :
    visitAll v (xs ++ ys) s = visitAll v xs s >>= visitAll v ys := by
  rw [visitAll, List.foldlM_append]
  rfl

/-- The data of a prediction is a total for each word the root knows; the first of the
smallest totals is predicted, unless the mistakes are no more. -/
structure Summed (m : Members) (visited : List ℕ) (word : ℕ) (data : List ℤ) : Prop where
  data_eq : data = (List.range m.rootWeights.length).map (m.total visited)
  least : ∃ least, Minimiser (m.total visited) m.rootWeights.length least ∧
    word = if m.total visited least < m.mistakes then least else 0

lemma Summed.lt {m : Members} {visited : List ℕ} {word : ℕ} {data : List ℤ}
    (h : Summed m visited word data) : word < m.rootWeights.length := by
  obtain ⟨least, hleast, rfl⟩ := h.least
  have hlt := hleast.lt
  split
  · exact hlt
  · omega

lemma visitAll_predictCalls {m : Members} {visited : List ℕ} (h : Predictable m visited)
    (hpos : 0 < m.rootWeights.length) (data : List ℤ) :
    ∃ prediction data', Summed m visited prediction data' ∧
      visitAll (visitor o) (.startPredict :: visited.mapIdx (fun k v => .pushPredict v k) ++
        [.finishPredict]) (m, data) = .ok (predicted m prediction, data') := by
  obtain ⟨data₁, hlen, hsum, hpush⟩ := visitAll_pushPredict o
    (m := { m with prediction := 0 }) h (rfl : m.rootWeights.length = m.rootWeights.length) 0
  simp only [Nat.zero_add] at hpush
  obtain ⟨least, hleast, hfinish⟩ := finishPredict_ok { m with prediction := 0 }
    (show 0 < data₁.length by rw [hlen]; exact hpos)
  have htotal (t : ℕ) (ht : t < m.rootWeights.length) : data₁.getD t 0 = m.total visited t := by
    have hget := List.getElem?_eq_getElem ht
    rw [List.getD_eq_getElem?_getD, hsum t, hget]
    simp only [Members.total, Members.weight, if_true, hget]
    rfl
  rw [hlen] at hleast
  replace hleast := hleast.congr htotal
  refine ⟨_, data₁, ⟨List.ext_getElem ?_ fun t ht ht' => ?_, least, hleast, rfl⟩, ?_⟩
  · rw [hlen, List.length_map, List.length_range]
  · have hlt : t < m.rootWeights.length := hlen ▸ ht
    rw [List.getElem_map, List.getElem_range, ← htotal t hlt]
    simp [ht]
  have hstart : visitAll (visitor o) [.startPredict] (m, data) =
      .ok ({ m with prediction := 0 }, m.rootWeights) := by
    simp [visitAll, visitor, startPredict_eq]
  rw [htotal least hleast.lt] at hfinish
  have hlast : visitAll (visitor o) [.finishPredict] ({ m with prediction := 0 }, data₁) =
      .ok (predicted m (if m.total visited least < m.mistakes then least else 0), data₁) := by
    simp only [visitAll, List.foldlM_cons, visitor, hfinish, ok_bind, List.foldlM_nil, pure_eq_ok]
    rfl
  rw [← List.singleton_append, visitAll_append, visitAll_append, hstart, ok_bind, hpush, ok_bind,
    hlast]

structure Charged (m m' : Members) (amount : ℤ) (vertices : List ℕ) (added : ℕ) : Prop where
  same : m' = { m with weights := m'.weights, rootWeights := m'.rootWeights }
  rootLength : m'.rootWeights.length = m.rootWeights.length
  length : m'.weights.length = m.weights.length + added
  weight : ∀ v w, m'.weight v w = m.weight v w +
    if v ∈ vertices ∧ w = m.prediction ∧ (v = rootNode → w < m.rootWeights.length) then amount
    else 0
  keys : ∀ (v : ℕ) ws (k : ℕ), m'.weights[v]? = some ws → k ∈ ws →
    k = m.prediction ∨ ∃ ws₀, m.weights[v]? = some ws₀ ∧ k ∈ ws₀

namespace Charged

lemma refl (m : Members) (amount : ℤ) : Charged m m amount [] 0 where
  same := rfl
  rootLength := rfl
  length := rfl
  weight := by simp
  keys _ ws _ hget hk := Or.inr ⟨ws, hget, hk⟩

lemma trans {m m' m'' : Members} {amount : ℤ} {vs vs' : List ℕ} {n n' : ℕ}
    (h : Charged m m' amount vs n) (h' : Charged m' m'' amount vs' n')
    (hd : ∀ v ∈ vs, v ∉ vs') : Charged m m'' amount (vs ++ vs') (n + n') := by
  have hp : m'.prediction = m.prediction := by rw [h.same]
  refine ⟨?_, h'.rootLength.trans h.rootLength, ?_, fun v w => ?_, fun v ws k hget hk => ?_⟩
  · rw [h'.same, h.same]
  · rw [h'.length, h.length, Nat.add_assoc]
  · rw [h'.weight, h.weight, hp, h.rootLength, Int.add_assoc]
    congr 1
    by_cases hv : v ∈ vs
    · simp [hv, hd v hv]
    · simp [hv]
  · rcases h'.keys v ws k hget hk with rfl | ⟨ws₁, hget₁, hk₁⟩
    · exact Or.inl hp
    · exact h.keys v ws₁ k hget₁ hk₁

end Charged

lemma weight_modify (m : Members) (i : ℕ)
    (f : AList (fun _ : ℕ => ℤ) → AList fun _ : ℕ => ℤ) (v w : ℕ) :
    ({ m with weights := m.weights.modify i f } : Members).weight v w =
      if v = i + 1 then (((m.weights[i]?).map f).bind (·.lookup w)).getD 0 else m.weight v w := by
  simp only [Members.weight, rootNode]
  by_cases hv : v = i + 1
  · subst hv
    simp
  · by_cases hz : v = 0
    · simp [hz]
    · have hne : i ≠ v - 1 := by omega
      simp [hv, hz, List.getElem?_modify_ne _ _ hne]

lemma chargeWord_lookup (word : ℕ) (amount : ℤ) (ws : AList fun _ : ℕ => ℤ) (w : ℕ) :
    ((chargeWord word amount ws).lookup w).getD 0 =
      (ws.lookup w).getD 0 + if w = word then amount else 0 := by
  by_cases hw : w = word
  · subst hw
    cases hl : ws.lookup w with
    | none => simp [chargeWord, hl]
    | some x => simp [chargeWord, hl]
  · cases hl : ws.lookup word with
    | none => simp [chargeWord, hl, hw]
    | some x => simp [chargeWord, hl, hw]

lemma mem_chargeWord {word : ℕ} {amount : ℤ} {ws : AList fun _ : ℕ => ℤ} {k : ℕ}
    (h : k ∈ chargeWord word amount ws) : k = word ∨ k ∈ ws := by
  cases hl : ws.lookup word with
  | none => simpa [chargeWord, hl] using h
  | some x => simpa [chargeWord, hl] using h

lemma pushFeedback_charged {m : Members} {node : ℕ} (h : node ≤ m.weights.length)
    (hroot : node = rootNode → o = .dropped ∨ m.prediction < m.rootWeights.length)
    (amount : ℤ) (data : List ℤ) :
    ∃ m', pushFeedback o amount m node data = .ok (m', data) ∧
      Charged m m' amount [node] 0 := by
  by_cases hn : node = rootNode
  · subst hn
    refine ⟨{ m with rootWeights := m.rootWeights.modify m.prediction (· + amount) }, ?_, rfl,
      by simp, rfl, fun v w => ?_, fun v ws k hget hk => Or.inr ⟨ws, hget, hk⟩⟩
    · have hassign : assignRoot o m.rootWeights m.prediction (· + amount) =
          .ok (m.rootWeights.modify m.prediction (· + amount)) := by
        cases o with
        | dropped => rfl
        | faults =>
          rcases hroot rfl with hr | hr
          · cases hr
          · exact update_of_lt hr _
      rw [pushFeedback, if_pos rfl, hassign, ok_bind, pure_eq_ok]
    · unfold Members.weight
      by_cases hv : v = rootNode
      · by_cases hw : w = m.prediction
        · subst hw
          by_cases hlt : m.prediction < m.rootWeights.length
          · simp [hv, hlt]
          · simp [hv, hlt]
        · simp [hv, hw, List.getElem?_modify_ne _ _ (Ne.symm hw)]
      · simp [hv]
  · have hne : node ≠ 0 := hn
    have hlt : node - 1 < m.weights.length := by omega
    have hget := List.getElem?_eq_getElem hlt
    refine ⟨{ m with weights := m.weights.modify (node - 1) (chargeWord m.prediction amount) },
      ?_, rfl, rfl, by simp, fun v w => ?_, fun v ws k hgetv hk => ?_⟩
    · rw [pushFeedback, if_neg hn, update_of_lt hlt, ok_bind, pure_eq_ok]
    · rw [weight_modify m _, show node - 1 + 1 = node by omega]
      by_cases hv : v = node
      · subst hv
        rw [if_pos rfl, hget, Option.map_some, Option.bind_some, chargeWord_lookup]
        have hz : v ≠ rootNode := hn
        simp [Members.weight, hz, hget]
      · simp [hv]
    · dsimp only at hgetv
      rw [List.getElem?_modify] at hgetv
      obtain ⟨ws₀, hws₀, rfl⟩ := Option.map_eq_some_iff.mp hgetv
      by_cases hv : node - 1 = v
      · rw [if_pos hv] at hk
        rcases mem_chargeWord hk with hk | hk
        · exact Or.inl hk
        · exact Or.inr ⟨ws₀, hws₀, hk⟩
      · rw [if_neg hv] at hk
        exact Or.inr ⟨ws₀, hws₀, hk⟩

def feedback (isRegret : Bool) : ℤ := if isRegret then 1 else -1

lemma addNode_charged {m : Members} {node : ℕ} (h : node = m.weights.length + 1) (data : List ℤ)
    (isRegret : Bool) :
    ∃ m', addNode o m node data isRegret = .ok (m', data) ∧
      Charged m m' (feedback isRegret) [node] 1 := by
  let grown : Members := { m with weights := m.weights ++ [∅] }
  have hle : node ≤ grown.weights.length := by
    simp [grown]
    omega
  obtain ⟨m', he, hc⟩ := pushFeedback_charged o hle (fun hz => by subst hz; cases h)
    (feedback isRegret) data
  have hweight (v w : ℕ) : grown.weight v w = m.weight v w := by
    simp only [Members.weight]
    by_cases hv : v - 1 = m.weights.length
    · simp [grown, hv]
    · rcases Nat.lt_or_gt_of_ne hv with hlt | hgt
      · simp [grown, List.getElem?_append_left hlt]
      · simp [grown, List.getElem?_append_right (Nat.le_of_lt hgt),
          List.getElem?_eq_none (Nat.le_of_lt hgt), Nat.sub_ne_zero_of_lt hgt]
  refine ⟨m', ?_, ?_, hc.rootLength, ?_, fun v w => ?_, fun v ws k hget hk => ?_⟩
  · cases isRegret with
    | true => exact he
    | false => exact he
  · rw [hc.same]
  · rw [hc.length]
    simp [grown]
  · rw [hc.weight, hweight]
  · rcases hc.keys v ws k hget hk with hk' | ⟨ws₀, hget₀, hk₀⟩
    · exact Or.inl hk'
    · by_cases hv : v < m.weights.length
      · exact Or.inr ⟨ws₀, by simpa [grown, List.getElem?_append_left hv] using hget₀, hk₀⟩
      · have hempty : ws₀ = ∅ := by
          simp only [grown] at hget₀
          rw [List.getElem?_append_right (by omega)] at hget₀
          have hz : v - m.weights.length = 0 := by
            have := (List.getElem?_eq_some_iff.mp hget₀).1
            simpa using this
          simpa [hz, eq_comm] using hget₀
        subst hempty
        exact absurd hk₀ (AList.notMem_empty k)

lemma visitAll_addNodes {m : Members} (data : List ℤ) (isRegret : Bool) (index count : ℕ) :
    ∃ m', visitAll (visitor o) ((List.range' (m.weights.length + 1) count).map
        (fun v => .addNode v index isRegret)) (m, data) = .ok (m', data) ∧
      Charged m m' (feedback isRegret) (List.range' (m.weights.length + 1) count) count := by
  induction count generalizing m with
  | zero => exact ⟨m, rfl, Charged.refl m _⟩
  | succ count ih =>
    obtain ⟨m₁, he, hc⟩ := addNode_charged o (m := m) rfl data isRegret
    obtain ⟨m₂, he', hc'⟩ := ih (m := m₁)
    rw [hc.length] at he' hc'
    refine ⟨m₂, ?_, ?_⟩
    · rw [List.range'_succ, List.map_cons]
      simp only [visitAll, List.foldlM_cons, visitor, he, ok_bind]
      exact he'
    · rw [List.range'_succ, Nat.add_comm count 1]
      exact hc.trans hc' (fun v hv => by
        rw [List.mem_singleton] at hv
        rw [List.mem_range'_1]
        omega)

def Pushes (push : ℕ → ℕ → Callback) (isRegret : Bool) : Prop :=
  push = (if isRegret then .pushRegret else .pushReinforce)

lemma visit_push {push : ℕ → ℕ → Callback} {isRegret : Bool} (h : Pushes push isRegret)
    (v k : ℕ) (m : Members) (data : List ℤ) : (visitor o).visit (push v k) (m, data) =
      pushFeedback o (feedback isRegret) m v data := by
  rw [h]
  cases isRegret <;> rfl

lemma visitAll_pushes {push : ℕ → ℕ → Callback} {isRegret : Bool} (h : Pushes push isRegret)
    {m : Members} {path : List ℕ} (hs : path.Pairwise (· < ·))
    (hle : ∀ v ∈ path, v ≤ m.weights.length)
    (hroot : rootNode ∈ path → o = .dropped ∨ m.prediction < m.rootWeights.length)
    (data : List ℤ) (i : ℕ) :
    ∃ m', visitAll (visitor o) (path.mapIdx (fun k v => push v (i + k))) (m, data) =
        .ok (m', data) ∧ Charged m m' (feedback isRegret) path 0 := by
  induction path generalizing m i with
  | nil => exact ⟨m, rfl, Charged.refl m _⟩
  | cons v path ih =>
    obtain ⟨hv, hs'⟩ := List.pairwise_cons.mp hs
    obtain ⟨m₁, he, hc⟩ := pushFeedback_charged o (hle v (by simp))
      (fun hz => hroot (by simp [hz])) (feedback isRegret) data
    have hp : m₁.prediction = m.prediction := by rw [hc.same]
    obtain ⟨m₂, he', hc'⟩ := ih (m := m₁) hs'
      (fun u hu => by rw [hc.length]; exact hle u (by simp [hu]))
      (fun hz => by rw [hp, hc.rootLength]; exact hroot (by simp [hz])) (i + 1)
    simp only [Nat.add_assoc, Nat.add_comm 1] at he'
    refine ⟨m₂, ?_, hc.trans hc' (fun u hu hm => ?_)⟩
    · rw [List.mapIdx_cons, visitAll, List.foldlM_cons, visit_push o h, he, ok_bind]
      exact he'
    · have := hv u hm
      rw [List.mem_singleton] at hu
      omega

lemma visitAll_settleCalls {push : ℕ → ℕ → Callback} {isRegret : Bool} (h : Pushes push isRegret)
    {m : Members} {path : List ℕ} (hs : path.Pairwise (· < ·))
    (hle : ∀ v ∈ path, v ≤ m.weights.length)
    (hroot : rootNode ∈ path → o = .dropped ∨ m.prediction < m.rootWeights.length)
    (data : List ℤ) (count : ℕ) :
    ∃ m', visitAll (visitor o) (settleCalls push isRegret path (m.weights.length + 1) count)
        (m, data) = .ok (m', data) ∧
      Charged m m' (feedback isRegret) (path ++ List.range' (m.weights.length + 1) count) count := by
  obtain ⟨m₁, he, hc⟩ := visitAll_pushes o h hs hle hroot data 0
  obtain ⟨m₂, he', hc'⟩ := visitAll_addNodes o (m := m₁) data isRegret path.length count
  rw [hc.length] at he' hc'
  simp only [Nat.zero_add] at he
  refine ⟨m₂, ?_, ?_⟩
  · rw [settleCalls, visitAll_append, he, ok_bind]
    exact he'
  · have hh := hc.trans hc' (fun v hv hm => by
      have hle' := hle v hv
      rw [List.mem_range'_1] at hm
      omega)
    rwa [Nat.zero_add] at hh

lemma visitAll_settleCalls_fault {push : ℕ → ℕ → Callback} {isRegret : Bool}
    (h : Pushes push isRegret) {m : Members} {path : List ℕ} (hhead : path.head? = some rootNode)
    (hm : m.rootWeights.length ≤ m.prediction) (data : List ℤ) (first count : ℕ) :
    visitAll (visitor .faults) (settleCalls push isRegret path first count) (m, data) =
      .error (.outOfRange .rootWeights m.prediction m.rootWeights.length) := by
  obtain ⟨path, rfl⟩ : ∃ rest, path = rootNode :: rest := List.head?_eq_some_iff.mp hhead
  rw [settleCalls, List.mapIdx_cons, List.cons_append, visitAll, List.foldlM_cons,
    visit_push _ h, pushFeedback, if_pos rfl]
  simp [assignRoot, update, not_lt.mpr hm]

end WordModel.BoundedCTModel
