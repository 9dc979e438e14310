import Mathlib.Data.List.Basic
import Mathlib.Data.List.Forall2
import Mathlib.Tactic.Common

/-! Executions over containers whose element accesses are checked: an access
outside the container, or a removal from an empty queue, ends the execution. -/

namespace WordModel.Checked

inductive Fault (κ : Type) where
  | outOfRange (container : κ) (index size : ℕ)
  | empty (container : κ)
  deriving DecidableEq, Repr

abbrev Exec (κ : Type) := Except (Fault κ)

variable {κ α β γ : Type}

@[simp] lemma ok_bind (a : α) (f : α → Exec κ β) : ((Except.ok a : Exec κ α) >>= f) = f a := rfl

@[simp] lemma error_bind (e : Fault κ) (f : α → Exec κ β) :
    ((Except.error e : Exec κ α) >>= f) = Except.error e := rfl

@[simp] lemma pure_eq_ok (a : α) : (pure a : Exec κ α) = Except.ok a := rfl

lemma bind_eq_ok {x : Exec κ α} {f : α → Exec κ β} {b : β} :
    (x >>= f) = Except.ok b ↔ ∃ a, x = Except.ok a ∧ f a = Except.ok b := by
  cases x with
  | error e => simp
  | ok a => simp

/-- `xs[i]`, checked. -/
def fetch (c : κ) (xs : List α) (i : ℕ) : Exec κ α :=
  match xs[i]? with
  | some x => .ok x
  | none => .error (.outOfRange c i xs.length)

/-- `xs[i] = f(xs[i])`, checked. -/
def update (c : κ) (xs : List α) (i : ℕ) (f : α → α) : Exec κ (List α) :=
  if i < xs.length then .ok (xs.modify i f) else .error (.outOfRange c i xs.length)

def popFront (c : κ) : List α → Exec κ (α × List α)
  | [] => .error (.empty c)
  | x :: xs => .ok (x, xs)

lemma popFront_eq_ok {c : κ} {xs ys : List α} {x : α} :
    popFront c xs = .ok (x, ys) ↔ xs = x :: ys := by
  cases xs with
  | nil => simp [popFront]
  | cons z zs => simp [popFront]

lemma fetch_of_getElem? {c : κ} {xs : List α} {i : ℕ} {x : α} (h : xs[i]? = some x) :
    fetch c xs i = .ok x := by
  simp [fetch, h]

lemma fetch_eq_ok {c : κ} {xs : List α} {i : ℕ} {x : α} :
    fetch c xs i = .ok x ↔ xs[i]? = some x := by
  rw [fetch]
  cases xs[i]? with
  | none => simp
  | some y => simp

lemma update_of_lt {c : κ} {xs : List α} {i : ℕ} (h : i < xs.length) (f : α → α) :
    update c xs i f = .ok (xs.modify i f) := by
  simp [update, h]

lemma update_length {c : κ} {xs ys : List α} {i : ℕ} {f : α → α}
    (h : update c xs i f = .ok ys) : ys.length = xs.length := by
  rw [update] at h
  split at h
  · rw [← Except.ok.inj h, List.length_modify]
  · cases h

lemma update_extends {c : κ} {xs w : List α} (h : w <+: xs) (hlt : w.length < xs.length) (x : α) :
    ∃ ys, update c xs w.length (fun _ => x) = .ok ys ∧ ys.length = xs.length ∧ w ++ [x] <+: ys := by
  obtain ⟨rest, rfl⟩ := h
  refine ⟨_, update_of_lt hlt _, List.length_modify _ _ _, ?_⟩
  cases rest with
  | nil => simp at hlt
  | cons y rest => exact ⟨rest, by simp [List.modify_eq_take_cons_drop hlt]⟩

lemma fetch_of_le {c : κ} {xs : List α} {i : ℕ} (h : xs.length ≤ i) :
    fetch c xs i = .error (.outOfRange c i xs.length) := by
  simp [fetch, List.getElem?_eq_none h]

lemma foldlM_ok {f : β → α → Exec κ β} {g : β → α → β} (P : β → Prop) {l : List α} {b : β}
    (hb : P b) (hf : ∀ b a, a ∈ l → P b → f b a = .ok (g b a) ∧ P (g b a)) :
    l.foldlM f b = .ok (l.foldl g b) ∧ P (l.foldl g b) := by
  induction l generalizing b with
  | nil => exact ⟨rfl, hb⟩
  | cons a l ih =>
    obtain ⟨hok, hP⟩ := hf b a (by simp) hb
    have ht := ih hP (fun b a ha => hf b a (List.mem_cons_of_mem _ ha))
    simpa only [List.foldlM_cons, hok, ok_bind, List.foldl_cons] using ht

lemma foldlM_exists {f : β → α → Exec κ β} {l : List α}
    (hf : ∀ b, ∀ a ∈ l, ∃ b', f b a = .ok b') (b : β) : ∃ b', l.foldlM f b = .ok b' := by
  induction l generalizing b with
  | nil => exact ⟨b, rfl⟩
  | cons a l ih =>
    obtain ⟨b', hb'⟩ := hf b a (by simp)
    rw [List.foldlM_cons, hb', ok_bind]
    exact ih (fun b c hc => hf b c (List.mem_cons_of_mem _ hc)) b'

lemma mapM_eq_ok {f : α → Exec κ β} {l : List α} {bs : List β} :
    l.mapM f = .ok bs ↔ List.Forall₂ (fun a b => f a = .ok b) l bs := by
  induction l generalizing bs with
  | nil =>
    cases bs with
    | nil => simp
    | cons b bs => simp
  | cons a l ih =>
    rw [List.mapM_cons, bind_eq_ok]
    constructor
    · rintro ⟨b, hb, h⟩
      obtain ⟨bs', hbs, h⟩ := bind_eq_ok.mp h
      obtain rfl := Except.ok.inj h
      exact .cons hb (ih.mp hbs)
    · intro h
      cases h with
      | cons hb hbs => exact ⟨_, hb, by rw [ih.mpr hbs]; rfl⟩

lemma mapM_exists {f : α → Exec κ β} {l : List α} (h : ∀ a ∈ l, ∃ b, f a = .ok b) :
    ∃ bs, l.mapM f = .ok bs := by
  induction l with
  | nil => exact ⟨[], rfl⟩
  | cons a l ih =>
    obtain ⟨b, hb⟩ := h a (by simp)
    obtain ⟨bs, hbs⟩ := ih (fun a' ha => h a' (List.mem_cons_of_mem _ ha))
    exact ⟨b :: bs, by rw [List.mapM_cons, hb, ok_bind, hbs]; rfl⟩

lemma copy_eq {c c' : κ} {src dst : List α} (h : dst.length = src.length) :
    (List.range src.length).foldlM (fun (d : List α) i => do
      let x ← fetch c src i
      update c' d i (fun _ => x)) dst = (.ok src : Exec κ (List α)) := by
  have key (k : ℕ) (hk : k ≤ src.length) : (List.range k).foldlM (fun (d : List α) i => do
      let x ← fetch c src i
      update c' d i (fun _ => x)) dst = (.ok (src.take k ++ dst.drop k) : Exec κ (List α)) := by
    induction k with
    | zero => simp
    | succ k ih =>
      have hlen : (src.take k).length = k := by
        rw [List.length_take]
        omega
      have hlt : k < (src.take k ++ dst.drop k).length := by
        rw [List.length_append, hlen, List.length_drop]
        omega
      rw [List.range_succ, List.foldlM_append, ih (by omega), ok_bind, List.foldlM_cons,
        fetch_of_getElem? (List.getElem?_eq_getElem hk), ok_bind, update_of_lt hlt, ok_bind,
        List.foldlM_nil, pure_eq_ok, List.modify_eq_take_cons_drop hlt, List.take_left' hlen,
        ← List.drop_drop, List.drop_left' hlen, List.drop_drop, List.append_cons,
        List.take_append_getElem]
  have hh := key src.length (Nat.le_refl _)
  rwa [List.take_length, List.drop_eq_nil_of_le (by omega), List.append_nil] at hh

def overwrite (xs : List α) (i : ℕ) (ys : List α) : List α :=
  xs.take i ++ ys ++ xs.drop (i + ys.length)

lemma overwrite_cons {xs : List α} {i : ℕ} (hi : i < xs.length) (y : α) (ys : List α) :
    overwrite xs i (y :: ys) = overwrite (xs.set i y) (i + 1) ys := by
  have ht : (xs.set i y).take (i + 1) = xs.take i ++ [y] := by
    rw [List.take_add_one, List.take_set, List.getElem?_set_self hi,
      List.set_eq_of_length_le (List.length_take_le i xs)]
    rfl
  have hd : (xs.set i y).drop (i + 1 + ys.length) = xs.drop (i + (ys.length + 1)) := by
    rw [List.drop_set_of_lt (by omega)]
    congr 1
    omega
  simp [overwrite, ht, hd]

@[simp] lemma overwrite_nil (xs : List α) (i : ℕ) : overwrite xs i [] = xs := by
  simp [overwrite]

lemma overwrite_prefix {xs : List α} (ys : List α) : ys <+: overwrite xs 0 ys :=
  ⟨xs.drop ys.length, by simp [overwrite]⟩

lemma overwrite_window {xs : List α} (ys : List α) {i : ℕ} (h : i ≤ xs.length) :
    ((overwrite xs i ys).drop i).take ys.length = ys := by
  have hi : (xs.take i).length = i := by
    rw [List.length_take]
    omega
  rw [overwrite, List.append_assoc, List.drop_left' hi, List.take_left]

def fill (xs : List α) (i : ℕ) (ys : List α) : List α :=
  xs.take i ++ ys.take (xs.length - i) ++ xs.drop (i + ys.length)

@[simp] lemma fill_length (xs : List α) (i : ℕ) (ys : List α) :
    (fill xs i ys).length = xs.length := by
  simp only [fill, List.length_append, List.length_take, List.length_drop]
  omega

lemma fill_eq {xs ys : List α} {i : ℕ} (h : i + ys.length ≤ xs.length) :
    fill xs i ys = xs.take i ++ ys ++ xs.drop (i + ys.length) := by
  rw [fill, List.take_of_length_le (l := ys) (by omega)]

lemma fill_append {xs ys : List α} (h : ys.length ≤ xs.length) (zs : List α) :
    fill (fill xs 0 ys) ys.length zs = fill xs 0 (ys ++ zs) := by
  have hfill : fill xs 0 ys = ys ++ xs.drop ys.length := by
    rw [fill_eq (by omega), List.take_zero, List.nil_append, Nat.zero_add]
  have hlen : (fill xs 0 ys).length = xs.length := fill_length xs 0 ys
  rw [fill, hlen, hfill, List.take_left, ← List.drop_drop, List.drop_left, List.drop_drop, fill,
    List.take_append, List.take_of_length_le (l := ys) (by omega), List.length_append,
    List.take_zero, List.nil_append, Nat.zero_add, Nat.sub_zero]

lemma fill_take {xs ys : List α} {i : ℕ} (h : i + ys.length ≤ xs.length) :
    (fill xs i ys).take (i + ys.length) = xs.take i ++ ys := by
  have hi : (xs.take i ++ ys).length = i + ys.length := by
    rw [List.length_append, List.length_take]
    omega
  rw [fill_eq h, List.take_left' hi]

end WordModel.Checked
