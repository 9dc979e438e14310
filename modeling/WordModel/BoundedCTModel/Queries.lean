import WordModel.BoundedCTModel.Steps

/-! Queries of the prediction that pass an integer: the model takes its own id from it. -/

namespace WordModel.BoundedCTModel

open Checked ContextTree

variable (p : Platform)

def Call.queries : Call → Bool
  | .getPrediction (some _) => true
  | _ => false

/-- An integer that is passed holds the id of the latest prediction's context already; before
the first prediction, the pool rejects it as it rejects the id the model was built with. -/
def Asked (s : BoundedCTModel × List Commit) : Call → Prop
  | .getPrediction (some id) =>
    match s.2.getLast? with
    | some e => id = e.contextId
    | none => id = 20 ↔ s.1.predictionId = 20
  | _ => True

lemma Stepped.commits_cases {m m' : BoundedCTModel} {c : Call} (hs : Stepped p m c m')
    (hq : c.queries = false) :
    (commits p m c m' = [] ∧ m'.predictionId = m.predictionId) ∨
      ∃ e, commits p m c m' = [e] ∧ m'.predictionId = e.contextId := by
  cases hs with
  | quiet _ hid hn =>
    refine Or.inl ⟨hn m', hid ?_⟩
    rintro id rfl
    cases hq
  | regretted hf =>
    refine Or.inl ⟨commits_predictionResult p m m' _ _, ?_⟩
    rw [hf.same.1]
  | committed hpos _ hr _ => exact Or.inr ⟨_, commits_committed p hpos hr, rfl⟩

lemma serveTree_rejected {m : BoundedCTModel} (h : Fitting m) (ha : m.ct.activeIds = [])
    (isRegret : Bool) {contextId : ℕ} (hne : contextId ≠ 20) (depth : ℤ) :
    serveTree p m (request isRegret contextId depth) = .ok m := by
  have hnot : contextId ∉ m.ct.activeIds := by simp [ha]
  rcases serveTree_cases p h isRegret contextId depth with ⟨_, m', he, hf⟩ | ⟨hs, _⟩
  · cases hf with
    | rejected => exact he
    | settled hmem => exact (hnot hmem).elim
  · exact (hs ⟨hne, fun hmem => (hnot hmem).elim⟩).elim

lemma addWord_withId (m : BoundedCTModel) (id : ℕ) :
    addWord { m with predictionId := id } = { m.addWord with predictionId := id } := by
  cases hw : m.wordMap.lookup m.currentString with
  | some n => rw [(addWord_of_some hw).1, (addWord_of_some (m := { m with predictionId := id }) hw).1]
  | none =>
    rw [addWord_eq_of_none hw, addWord_eq_of_none (m := { m with predictionId := id }) hw]

lemma fitting_withId {m : BoundedCTModel} (h : Fitting m) (id : ℕ) :
    Fitting { m with predictionId := id } :=
  ⟨h.sound, h.numbered, h.maxContexts, h.words_length, h.wordMap, h.prediction_lt, h.positive,
    h.known, h.weights_length, h.keys, h.dataMap, h.context, h.context_length⟩

lemma correct_early {m : BoundedCTModel} (h : Fitting m) (ha : m.ct.activeIds = [])
    (hid : Mistaken m → m.predictionId ≠ 20) :
    correct p m.addWord = .ok (if Mistaken m then blamed m else m.addWord) := by
  by_cases hm : Mistaken m
  · have hne := (mistaken_iff h).mp hm
    have hactive : (blamed m).ct.activeIds = [] := by
      rw [blamed, addWord_same]
      exact ha
    have hsame : m.addWord.predictionId = m.predictionId := by rw [addWord_same]
    rw [correct, if_pos hne, if_pos hm]
    exact serveTree_rejected p (blamed_fitting h) hactive false (hsame ▸ hid hm) _
  · rw [correct, if_neg (fun hne => hm ((mistaken_iff h).mpr hne)), if_neg hm]

lemma commit_withId {m : BoundedCTModel} (h : Fitting m) (ha : m.ct.activeIds = [])
    (hm : Mistaken m → m.predictionId ≠ 20) {id : ℕ} (hid : Mistaken m → id ≠ 20) :
    ∃ r, prepare p m = .ok r ∧
      prepare p { m with predictionId := id } = .ok { r with predictionId := id } := by
  have he := correct_early p h ha hm
  have he' := correct_early p (fitting_withId h id) ha hid
  have hmist : Mistaken { m with predictionId := id } ↔ Mistaken m := Iff.rfl
  refine ⟨(if Mistaken m then blamed m else m.addWord).pushContext, ?_, ?_⟩
  · rw [prepare, he, ok_bind, pure_eq_ok]
  · rw [prepare, he', ok_bind, pure_eq_ok]
    simp only [hmist]
    split
    · rw [blamed, blamed, addWord_withId]
      rfl
    · rw [addWord_withId]
      rfl

inductive Alike : BoundedCTModel × List Commit → BoundedCTModel × List Commit → Prop
  | early {m : BoundedCTModel} {id : ℕ} : m.ct.activeIds = [] → (id = 20 ↔ m.predictionId = 20) →
      Alike (m, []) ({ m with predictionId := id }, [])
  | later {m : BoundedCTModel} {log : List Commit} {e : Commit} : log.getLast? = some e →
      m.predictionId = e.contextId → Alike (m, log) (m, log)

lemma Alike.later_of_step {m m' : BoundedCTModel} {log : List Commit} {e : Commit} {c : Call}
    (hlog : log.getLast? = some e) (hid : m.predictionId = e.contextId) (hs : Stepped p m c m')
    (hq : c.queries = false) :
    Alike (m', log ++ commits p m c m') (m', log ++ commits p m c m') := by
  rcases hs.commits_cases p hq with ⟨hn, hp⟩ | ⟨e', he', hp⟩
  · rw [hn, List.append_nil]
    exact .later hlog (hp.trans hid)
  · rw [he']
    exact .later (e := e') (by simp) hp

lemma putc_withId (m : BoundedCTModel) (id : ℕ) (c : UInt8) :
    (putc { m with predictionId := id } c).1 = { (m.putc c).1 with predictionId := id } := by
  simp only [putc]
  split
  · split
    · split <;> rfl
    · rfl
  · rfl

lemma Alike.commit_early {m m' : BoundedCTModel} {id : ℕ} (h : Fitting m) (hc : Complete m)
    (ha : m.ct.activeIds = []) (hid : id = 20 ↔ m.predictionId = 20)
    (hpos : 0 < m.currentString.length) (he : step p m (.interface true) = .ok m') :
    ∃ t, step p { m with predictionId := id } (.interface true) = .ok t ∧
      Alike (m', commits p m (.interface true) m')
        (t, commits p { m with predictionId := id } (.interface true) t) := by
  have hsafe : SafeCommit p m := by
    rcases step_cases p h hc (.interface true) with ⟨hsafe, _⟩ | ⟨_, e, he'⟩
    · exact hsafe hpos
    · rw [he] at he'
      cases he'
  have hid' (hm : Mistaken m) : id ≠ 20 := fun heq => (hsafe hm).1 (hid.mp heq)
  obtain ⟨r, hr, hr'⟩ := commit_withId p h ha (fun hm => (hsafe hm).1) hid'
  have hstep : step p m (.interface true) = predictNext p r := by
    simp [step, interface, hpos, doPredict, hr]
  have hstep' : step p { m with predictionId := id } (.interface true) = predictNext p r := by
    simp only [step, interface, hpos, doPredict, hr', ok_bind, and_self, ↓reduceIte]
    rfl
  refine ⟨m', by rw [hstep', ← hstep, he], ?_⟩
  rw [commits_committed p hpos hr, commits_committed p (m := { m with predictionId := id })
    hpos hr']
  exact .later rfl rfl

lemma commits_interface {m : BoundedCTModel} {atInterface : Bool}
    (h : ¬ (atInterface = true ∧ 0 < m.currentString.length)) (m' : BoundedCTModel) :
    commits p m (.interface atInterface) m' = [] := by
  cases atInterface with
  | false => simp [commits]
  | true =>
    have hempty : ¬ 0 < m.currentString.length := fun hpos => h ⟨rfl, hpos⟩
    simp only [commits, if_neg hempty]

lemma Alike.step_early {m m' : BoundedCTModel} {id : ℕ} (h : Fitting m) (hc : Complete m)
    (ha : m.ct.activeIds = []) (hid : id = 20 ↔ m.predictionId = 20) {c : Call}
    (hq : c.queries = false) (he : step p m c = .ok m') :
    ∃ t, step p { m with predictionId := id } c = .ok t ∧
      Alike (m', commits p m c m') (t, commits p { m with predictionId := id } c t) := by
  have hs := Stepped.of_ok p h hc he
  cases c with
  | putc c =>
    obtain rfl := Except.ok.inj he
    refine ⟨_, rfl, ?_⟩
    rw [putc_withId m id c]
    refine .early ?_ ?_
    · rw [putc_same]
      exact ha
    · rw [putc_same]
      exact hid
  | getPrediction x =>
    cases x with
    | some x => cases hq
    | none =>
      obtain ⟨⟨_, _, _⟩, hget, hm⟩ := bind_eq_ok.mp he
      obtain ⟨word, hw, hr⟩ := bind_eq_ok.mp hget
      obtain ⟨rfl, rfl, rfl⟩ := Prod.mk.inj (Except.ok.inj hr) |>.imp_right Prod.mk.inj
      obtain rfl := Except.ok.inj hm
      refine ⟨{ m with predictionId := id }, ?_, .early ha hid⟩
      simp [step, getPrediction, hw]
  | predictionResult contextId outcome =>
    simp only [commits_predictionResult]
    cases outcome with
    | true =>
      obtain rfl := Except.ok.inj he
      exact ⟨_, rfl, .early ha hid⟩
    | false =>
      have hne : contextId ≠ 20 := by
        rcases step_cases p h hc (.predictionResult contextId false) with ⟨hsafe, _⟩ | ⟨_, e, he'⟩
        · exact hsafe
        · rw [he] at he'
          cases he'
      have hm : step p m (.predictionResult contextId false) = .ok m :=
        serveTree_rejected p h ha true hne m.depth
      rw [he, Except.ok.injEq] at hm
      subst hm
      exact ⟨_, serveTree_rejected p (fitting_withId h id) ha true hne m'.depth, .early ha hid⟩
  | interface atInterface =>
    by_cases hcommit : atInterface = true ∧ 0 < m.currentString.length
    · obtain ⟨rfl, hpos⟩ := hcommit
      exact Alike.commit_early p h hc ha hid hpos he
    · have hm : step p m (.interface atInterface) = .ok m := by
        simp [step, interface, hcommit]
      rw [he, Except.ok.injEq] at hm
      subst hm
      refine ⟨{ m' with predictionId := id }, by simp [step, interface, hcommit], ?_⟩
      rw [commits_interface p hcommit, commits_interface p (m := { m' with predictionId := id }) hcommit]
      exact .early ha hid

lemma Alike.same {s s' : BoundedCTModel × List Commit} (h : Alike s s') :
    s'.2 = s.2 ∧ s'.1 = { s.1 with predictionId := s'.1.predictionId } ∧
      ∀ e ∈ s.2.getLast?, s.1.predictionId = e.contextId ∧ s' = s := by
  cases h with
  | early _ _ => exact ⟨rfl, rfl, by simp⟩
  | later hlog hid =>
    refine ⟨rfl, rfl, fun e he => ⟨?_, rfl⟩⟩
    rw [hlog, Option.mem_some_iff] at he
    exact he ▸ hid

lemma Alike.step_kept {s s' t : BoundedCTModel × List Commit} (h : Alike s s')
    (hg : Fitting s.1 ∧ Complete s.1) {c : Call} (hq : c.queries = false)
    (he : Runs.traced (step p) (commits p) s c = .ok t) :
    ∃ t', Runs.traced (step p) (commits p) s' c = .ok t' ∧ Alike t t' := by
  obtain ⟨m', log'⟩ := t
  obtain ⟨hm, hlog⟩ := Runs.traced_eq_ok.mp he
  dsimp only at hm hlog
  cases h with
  | @early m id ha hid =>
    obtain ⟨t, ht, hlike⟩ := Alike.step_early p hg.1 hg.2 ha hid hq hm
    refine ⟨(t, commits p { m with predictionId := id } c t), Runs.traced_eq_ok.mpr ⟨ht, rfl⟩, ?_⟩
    rw [hlog]
    exact hlike
  | later hl hid =>
    refine ⟨(m', log'), Runs.traced_eq_ok.mpr ⟨hm, hlog⟩, ?_⟩
    rw [hlog]
    exact Alike.later_of_step p hl hid (Stepped.of_ok p hg.1 hg.2 hm) hq

lemma Alike.step_query {s s' t : BoundedCTModel × List Commit} (h : Alike s s') {c : Call}
    (hasked : Asked s c) (hq : c.queries = true)
    (he : Runs.traced (step p) (commits p) s c = .ok t) : Alike t s' := by
  obtain ⟨x, rfl⟩ : ∃ x, c = .getPrediction (some x) := by
    rcases c with _ | _ | ⟨_ | x⟩ | _
    · cases hq
    · cases hq
    · cases hq
    · exact ⟨x, rfl⟩
    · cases hq
  obtain ⟨m', log'⟩ := t
  obtain ⟨hm, hlog⟩ := Runs.traced_eq_ok.mp he
  have hm' : m' = { s.1 with predictionId := x } := by
    obtain ⟨⟨_, _, _⟩, hget, hr⟩ := bind_eq_ok.mp hm
    obtain ⟨word, _, hw⟩ := bind_eq_ok.mp hget
    obtain ⟨rfl, _⟩ := Prod.mk.inj (Except.ok.inj hw)
    exact (Except.ok.inj hr).symm
  have hlog' : log' = s.2 := by simpa [commits] using hlog
  subst hm' hlog'
  cases h with
  | @early m id ha hid =>
    have hx : x = 20 ↔ m.predictionId = 20 := hasked
    exact .early (m := { m with predictionId := x }) ha (hid.trans hx.symm)
  | @later m log e hl hid =>
    have hx : x = e.contextId := by simpa [Asked, hl] using hasked
    have hsame : ({ m with predictionId := x } : BoundedCTModel) = m := by rw [hx, ← hid]
    dsimp only
    rw [hsame]
    exact .later hl hid

variable {p} in
lemma Reached.alike {bound : UInt32} {predictionId : ℕ} {calls : List Call}
    {s : BoundedCTModel × List Commit} (h : Reached p Asked bound predictionId calls s) :
    ∃ s', Reached p (fun _ _ => True) bound predictionId
      (calls.filter (fun c => !c.queries)) s' ∧ Alike s s' := by
  have hfresh : Alike (fresh bound predictionId, []) (fresh bound predictionId, []) :=
    .early (m := fresh bound predictionId) rfl Iff.rfl
  obtain ⟨s', hr, _, hs⟩ := Runs.Run.filter (f := Runs.traced (step p) (commits p))
    (R := fun s s' : BoundedCTModel × List Commit => (Fitting s.1 ∧ Complete s.1) ∧ Alike s s')
    (k := fun c : Call => !c.queries)
    (fun s s' c t hr _ he hk => by
      obtain ⟨hg, hlike⟩ := hr
      obtain ⟨t', he', hlike'⟩ := hlike.step_kept p hg (by simpa using hk) he
      have hstep := (Runs.traced_eq_ok.mp he).1
      exact ⟨t', he', (Stepped.of_ok p hg.1 hg.2 hstep).fitting p hg.1 hg.2, hlike'⟩)
    (fun s s' c t hr ha he hk => by
      obtain ⟨hg, hlike⟩ := hr
      have hstep := (Runs.traced_eq_ok.mp he).1
      exact ⟨(Stepped.of_ok p hg.1 hg.2 hstep).fitting p hg.1 hg.2,
        hlike.step_query p ha (by simpa using hk) he⟩)
    h ⟨⟨fresh_fitting bound predictionId, rfl⟩, hfresh⟩
  exact ⟨s', hr, hs⟩

theorem queries_law (bound : UInt32) (predictionId : ℕ) (calls : List Call)
    (s : BoundedCTModel × List Commit) (h : Reached p Asked bound predictionId calls s) :
    (∃ s', Reached p (fun _ _ => True) bound predictionId
        (calls.filter (fun c => !c.queries)) s' ∧
      s'.2 = s.2 ∧ s'.1 = { s.1 with predictionId := s'.1.predictionId }) ∧
    ∀ e ∈ s.2.getLast?, s.1.predictionId = e.contextId ∧
      ∀ id, (∃ m word, s.1.getPrediction (some id) = .ok (m, some e.contextId, word)) ↔
        id = e.contextId := by
  obtain ⟨s', hr, hlike⟩ := h.alike
  obtain ⟨hlog, hm, hid⟩ := hlike.same
  refine ⟨⟨s', hr, hlog, hm⟩, fun e he => ⟨(hid e he).1, fun id => ?_⟩⟩
  obtain ⟨hf, _⟩ := h.fitting
  obtain ⟨word, hword⟩ : ∃ word, s.1.words[s.1.prediction]? = some word :=
    ⟨_, List.getElem?_eq_getElem (by rw [hf.words_length]; exact hf.prediction_lt)⟩
  have hget : s.1.getPrediction (some id) =
      .ok ({ s.1 with predictionId := id }, some id, word) := by
    simp [getPrediction, fetch_of_getElem? hword]
  rw [hget]
  constructor
  · rintro ⟨m, w, hh⟩
    simp only [Except.ok.injEq, Prod.mk.injEq, Option.some.injEq] at hh
    exact hh.2.1
  · rintro rfl
    exact ⟨_, _, rfl⟩

theorem queries_law_again : ∃ s s',
    Reached ⟨fun _ _ _ => 0, .dropped⟩ Asked 5 7 [.putc 97, .interface true,
      .getPrediction (some 0), .putc 98, .interface true] s ∧
    Reached ⟨fun _ _ _ => 0, .dropped⟩ (fun _ _ => True) 5 7 [.putc 97, .interface true,
      .putc 98, .interface true] s' ∧ s'.2 = s.2 ∧ s.2.length = 2 := by
  have h : Reached ⟨fun _ _ _ => 0, .dropped⟩ Asked 5 7 [.putc 97, .interface true,
      .getPrediction (some 0), .putc 98, .interface true] _ :=
    .cons trivial rfl (.cons trivial rfl (.cons rfl rfl (.cons trivial rfl (.cons trivial rfl .nil))))
  obtain ⟨⟨s', hr, hlog, _⟩, _⟩ := queries_law _ 5 7 _ _ h
  exact ⟨_, s', h, hr, hlog, rfl⟩

theorem queries_law_fails : ¬ ∀ (bound : UInt32) (predictionId : ℕ) (calls : List Call)
    (s s' : BoundedCTModel × List Commit),
    Reached ⟨fun _ _ _ => 0, .dropped⟩ (fun _ _ => True) bound predictionId calls s →
    Reached ⟨fun _ _ _ => 0, .dropped⟩ (fun _ _ => True) bound predictionId
      (calls.filter (fun c => !c.queries)) s' →
    s'.1.weights = s.1.weights := by
  intro h
  have hqueried : Reached ⟨fun _ _ _ => 0, .dropped⟩ (fun _ _ => True) 5 7 [.putc 97,
      .interface true, .getPrediction (some 5), .putc 98, .interface true] _ :=
    .cons trivial rfl (.cons trivial rfl (.cons trivial rfl (.cons trivial rfl
      (.cons trivial rfl .nil))))
  have hplain : Reached ⟨fun _ _ _ => 0, .dropped⟩ (fun _ _ => True) 5 7 [.putc 97,
      .interface true, .putc 98, .interface true] _ :=
    .cons trivial rfl (.cons trivial rfl (.cons trivial rfl (.cons trivial rfl .nil)))
  have hweights := h 5 7 _ _ _ hqueried hplain
  cases hweights

end WordModel.BoundedCTModel
