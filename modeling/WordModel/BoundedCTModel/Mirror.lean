import WordModel.BoundedCTModel.Steps

/-! Regret and reinforcement of one prediction, each from the same state: what they do to the
tree is the same, and what they do to the weights is opposite. -/

namespace WordModel

open Checked ContextTree

namespace ContextTree

def Callback.touches : Callback → Option ℕ
  | .pushRegret node _ => some node
  | .pushReinforce node _ => some node
  | .addNode node _ _ => some node
  | _ => none

def touched {ContextData : Type}
    (settlement : Exec Container (ContextTree ℕ ContextData × List Callback)) :
    Exec Container (List ℕ) :=
  settlement.map (fun r => r.2.filterMap Callback.touches)

lemma settleCalls_touches {push : ℕ → ℕ → Callback} (h : ∀ v k, (push v k).touches = some v)
    (isRegret : Bool) (path : List ℕ) (first count : ℕ) :
    (settleCalls push isRegret path first count).filterMap Callback.touches =
      path ++ List.range' first count := by
  have hpath (vs : List ℕ) (i : ℕ) :
      (vs.mapIdx (fun k v => push v (i + k))).filterMap Callback.touches = vs := by
    induction vs generalizing i with
    | nil => rfl
    | cons v vs ih =>
      have hh := ih (i + 1)
      simp only [Nat.add_assoc, Nat.add_comm 1] at hh
      simp [h, hh]
  have hnew (vs : List ℕ) : (vs.map (fun v => Callback.addNode v path.length isRegret)).filterMap
      Callback.touches = vs := by
    induction vs with
    | nil => rfl
    | cons v vs ih => simp [Callback.touches, ih]
  have hh := hpath path 0
  simp only [Nat.zero_add] at hh
  rw [settleCalls, List.filterMap_append, hh, hnew]

end ContextTree

namespace BoundedCTModel

variable (p : Platform)

structure Mirrored (m : BoundedCTModel) (contextId : ℕ) (depth : ℤ) (regretted
    reinforced : BoundedCTModel) : Prop where
  regret : serveTree p m (.regret contextId depth) = .ok regretted
  reinforce : serveTree p m (.reinforce contextId depth) = .ok reinforced
  tree : regretted.ct.tree = reinforced.ct.tree
  vertexNumber : regretted.ct.vertexNumber = reinforced.ct.vertexNumber
  pool : regretted.ct.activeIds = reinforced.ct.activeIds ∧
    regretted.ct.inactiveIds = reinforced.ct.inactiveIds
  touched : ∃ vertices, touched (m.ct.regret p.template contextId depth) = .ok vertices ∧
    touched (m.ct.reinforce p.template contextId depth) = .ok vertices
  weight : ∀ v w, regretted.weight v w - m.weight v w = -(reinforced.weight v w - m.weight v w)

variable {p}

lemma Fed.mirrored {m r f : BoundedCTModel} {contextId : ℕ} (ha : contextId ∈ m.ct.activeIds)
    {depth : ℤ} (hr : Fed p m true contextId depth r) (hf : Fed p m false contextId depth f) :
    r.ct = f.ct ∧ ∀ v w, r.weight v w - m.weight v w = -(f.weight v w - m.weight v w) := by
  cases hr with
  | rejected hn => exact absurd ha hn
  | @settled con path members _ hget hrec hcharged =>
    cases hf with
    | rejected hn => exact absurd ha hn
    | @settled con' path' members' _ hget' hrec' hcharged' =>
      rw [hget, Option.some.injEq] at hget'
      subst hget'
      obtain rfl := hrec.unique hrec'
      refine ⟨rfl, fun v w => ?_⟩
      have hup := hcharged.weight v w
      have hdown := hcharged'.weight v w
      dsimp only [feedback] at hup hdown
      change members.weight v w - m.weight v w = -(members'.weight v w - m.weight v w)
      rw [hup, hdown]
      split
      · simp only [if_true, Bool.false_eq_true, if_false]
        omega
      · omega

lemma settled_touches {m : BoundedCTModel} (h : Fitting m) {contextId : ℕ}
    (ha : contextId ∈ m.ct.activeIds) {con : Context (List ℤ)} {path : List ℕ}
    (hget : m.ct.contexts[contextId]? = some con) (hrec : Recorded m.ct.tree con path)
    (isRegret : Bool) {push : ℕ → ℕ → Callback} (hpush : ∀ v k, (push v k).touches = some v)
    (depth : ℤ) : touched (settle p.template push isRegret m.ct contextId depth) =
      .ok (path ++ List.range' m.ct.vertexNumber (newTokens con path.length depth).length) := by
  have hvalid := h.sound.pooled.validateId_iff.mpr (Or.inl ha)
  rw [settle_eq p.template push isRegret hvalid h.sound.ordered hget hrec depth, touched,
    Except.map, settleCalls_touches hpush]

lemma mirrored {m : BoundedCTModel} (h : Fitting m) (hc : Chargeable p m) {contextId : ℕ}
    (ha : contextId ∈ m.ct.activeIds) (depth : ℤ) : ∃ r f, Mirrored p m contextId depth r f := by
  have hne : contextId ≠ 20 := by
    have hlt := h.sound.pooled.active_lt ha
    rw [h.maxContexts] at hlt
    omega
  have hserved (isRegret : Bool) : ∃ m', serveTree p m (request isRegret contextId depth) = .ok m' ∧
      Fed p m isRegret contextId depth m' := by
    rcases serveTree_cases p h isRegret contextId depth with ⟨-, hok⟩ | ⟨hn, -⟩
    · exact hok
    · exact absurd ⟨hne, fun _ => hc⟩ hn
  obtain ⟨r, hr, hregret⟩ := hserved true
  obtain ⟨f, hf, hreinforce⟩ := hserved false
  obtain ⟨hct, hweight⟩ := hregret.mirrored ha hreinforce
  have hlt := h.sound.pooled.active_lt ha
  rw [← h.sound.contexts_length] at hlt
  have hget := List.getElem?_eq_getElem hlt
  obtain ⟨path, hrec⟩ := h.sound.recorded contextId ha _ hget
  exact ⟨r, f, hr, hf, by rw [hct], by rw [hct], ⟨by rw [hct], by rw [hct]⟩,
    ⟨_, settled_touches h ha hget hrec true (fun _ _ => rfl) depth,
      settled_touches h ha hget hrec false (fun _ _ => rfl) depth⟩, hweight⟩

/-- The states between calls, and the one in which a commit settles the prediction that
turned out wrong, if it can do so. -/
inductive Settling (p : Platform) (m : BoundedCTModel) : BoundedCTModel → Prop
  | between : Settling p m m
  | within : p.overrun = .dropped ∨ m.currentString ∈ m.wordMap → Settling p m (blamed m)

theorem mirror_law (bound : UInt32) (predictionId : ℕ) (calls : List Call)
    (s : BoundedCTModel × List Commit)
    (h : Reached p (fun _ _ => True) bound predictionId calls s) (m : BoundedCTModel)
    (hm : Settling p s.1 m) (contextId : ℕ) (ha : contextId ∈ m.ct.activeIds) (depth : ℤ) :
    ∃ regretted reinforced, Mirrored p m contextId depth regretted reinforced := by
  obtain ⟨hf, hc⟩ := h.fitting
  cases hm with
  | between =>
    have hroot : s.1.prediction < s.1.rootWeights.length := by
      rw [hc]
      exact hf.prediction_lt
    exact mirrored hf (Or.inr hroot) ha depth
  | within hsafe =>
    exact mirrored (blamed_fitting hf) ((blamed_chargeable p hf hc).mpr hsafe) ha depth

theorem mirror_law_two : ∃ s regretted reinforced,
    Reached ⟨fun _ _ _ => 0, .dropped⟩ (fun _ _ => True) 5 7
      [.putc 97, .interface true, .putc 98, .interface true] s ∧
    Mirrored ⟨fun _ _ _ => 0, .dropped⟩ s.1 1 5 regretted reinforced := by
  have h : Reached ⟨fun _ _ _ => 0, .dropped⟩ (fun _ _ => True) 5 7
      [.putc 97, .interface true, .putc 98, .interface true] _ :=
    .cons trivial rfl (.cons trivial rfl (.cons trivial rfl (.cons trivial rfl .nil)))
  obtain ⟨r, f, hmirror⟩ := mirror_law 5 7 _ _ h _ .between 1 (by decide) 5
  exact ⟨_, r, f, h, hmirror⟩

end BoundedCTModel

end WordModel
