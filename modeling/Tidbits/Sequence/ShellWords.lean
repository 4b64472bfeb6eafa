import Mathlib.Algebra.BigOperators.Group.List.Basic
import Mathlib.Algebra.GroupWithZero.Nat
import Mathlib.Algebra.Order.Monoid.Unbundled.Basic
import Mathlib.Data.List.Flatten

/-!
# The words of a shell command

Blanks separate the words of a simple command.  Quotes and escapes keep what they
protect in a word, and are not part of it.  `words` fails where a shell does more
than that, at a substitution or an operator, and where a quote is left open.

What kind of character a character is is a parameter.

A word takes a blank from the command, unless it is the first one, and a protected
character takes a quote besides itself.  So words that are worth as much as the
command with its blanks were not quoted at all (`forall_of_le_cost`).
-/

universe u

namespace Tidbits.Sequence.Shell

inductive Kind where
  | blank
  | single
  | double
  | escape
  | substitution
  | operator
  | ordinary
deriving DecidableEq

/-- The kinds that protect other characters. -/
def Kind.protects : Kind → Bool
  | single | double | escape => true
  | blank | substitution | operator | ordinary => false

/-- The kinds that only come into a word when they are protected. -/
def Kind.special : Kind → Bool
  | blank => true
  | k => k.protects

/-- What protects the next character. -/
inductive Quoting (α : Type u) where
  | none
  | single
  | double
  | escaped
  /-- Behind an escape in double quotes, which is kept if there is nothing to escape. -/
  | doubleEscaped (e : α)

variable {α : Type u}

/-- Where the shell is in a command, with the word that has begun. -/
structure State (α : Type u) where
  quoting : Quoting α
  word : Option (List α)

def State.init : State α := ⟨.none, none⟩

/-- The word with one more character, or a new one. -/
def State.push (σ : State α) (q : Quoting α) (c : α) : State α := ⟨q, some (σ.word.getD [] ++ [c])⟩

/-- The beginning of a quote, which is the beginning of a word too. -/
def State.enter (σ : State α) (q : Quoting α) : State α := ⟨q, some (σ.word.getD [])⟩

/-- The word that a character ends, and where it leads. -/
def read (kind : α → Kind) (σ : State α) (c : α) : Option (Option (List α) × State α) :=
  match σ.quoting with
  | .none =>
      match kind c with
      | .blank => some (σ.word, .init)
      | .single => some (none, σ.enter .single)
      | .double => some (none, σ.enter .double)
      | .escape => some (none, σ.enter .escaped)
      | .substitution | .operator => none
      | .ordinary => some (none, σ.push .none c)
  | .single =>
      match kind c with
      | .single => some (none, σ.enter .none)
      | _ => some (none, σ.push .single c)
  | .double =>
      match kind c with
      | .double => some (none, σ.enter .none)
      | .escape => some (none, σ.enter (.doubleEscaped c))
      | .substitution => none
      | _ => some (none, σ.push .double c)
  | .escaped => some (none, σ.push .none c)
  | .doubleEscaped e =>
      match kind c with
      | .double | .escape | .substitution => some (none, σ.push .double c)
      | _ => some (none, (σ.push .double e).push .double c)

/-- The words of the rest of a command. -/
def wordsFrom (kind : α → Kind) (σ : State α) : List α → Option (List (List α))
  | [] =>
      match σ.quoting with
      | .none => some σ.word.toList
      | _ => none
  | c :: s => do
      let (word, σ') ← read kind σ c
      let ws ← wordsFrom kind σ' s
      return word.toList ++ ws

/-- The words of a command. -/
def words (kind : α → Kind) (s : List α) : Option (List (List α)) := wordsFrom kind .init s

variable {kind : α → Kind} {σ σ' : State α} {word : Option (List α)} {c : α} {w s t : List α}
  {ws ts : List (List α)}

theorem wordsFrom_cons (h : wordsFrom kind σ (c :: s) = some ws) :
    ∃ word σ' ws', read kind σ c = some (word, σ') ∧ wordsFrom kind σ' s = some ws' ∧
      ws = word.toList ++ ws' := by
  obtain ⟨⟨word, σ'⟩, hread, h⟩ := Option.bind_eq_some_iff.1 h
  obtain ⟨ws', hws', h⟩ := Option.bind_eq_some_iff.1 h
  exact ⟨word, σ', ws', hread, hws', (Option.some.inj h).symm⟩

theorem wordsFrom_of_read (h : read kind σ c = some (word, σ')) :
    wordsFrom kind σ (c :: s) = (wordsFrom kind σ' s).map (word.toList ++ ·) := by
  rw [wordsFrom, h]
  exact Option.map_eq_bind.symm

/-- Only a command that leaves no quote open has words. -/
theorem wordsFrom_nil (h : wordsFrom kind σ [] = some ws) :
    σ.quoting = .none ∧ ws = σ.word.toList := by
  rw [wordsFrom] at h
  split at h
  · next hq => exact ⟨hq, (Option.some.inj h).symm⟩
  · cases h

/-! ## One character -/

/-- An escape that may turn out to be kept. -/
def Quoting.kept : Quoting α → List α
  | doubleEscaped e => [e]
  | none | single | double | escaped => []

/-- What has been read of the word that has begun. -/
def State.text (σ : State α) : List α := σ.word.getD [] ++ σ.quoting.kept

theorem State.text_push (σ : State α) {q : Quoting α} (hq : q.kept = []) (c : α) :
    (σ.push q c).text = σ.word.getD [] ++ [c] := by
  rw [text, push, hq, List.append_nil, Option.getD_some]

theorem State.text_enter (σ : State α) (q : Quoting α) :
    (σ.enter q).text = σ.word.getD [] ++ q.kept := rfl

/-- A character ends a word, begins or ends a quote, or comes into the word.  Where nothing is
quoted only an ordinary one does. -/
inductive Reads (kind : α → Kind) (σ : State α) (c : α) : Option (List α) → State α → Prop where
  | blank (hq : σ.quoting = .none) (hc : kind c = .blank) : Reads kind σ c σ.word .init
  | enter (q : Quoting α) (hc : (kind c).protects) (hkept : σ.quoting.kept = [])
      (hq : q.kept.Sublist [c]) (hnone : σ.quoting = .none → q.kept = []) :
      Reads kind σ c none (σ.enter q)
  | push (q : Quoting α) (hq : q.kept = [])
      (hnone : σ.quoting = .none → q = .none ∧ kind c = .ordinary) :
      Reads kind σ c none (σ.push q c)
  | kept (e : α) (hq : σ.quoting = .doubleEscaped e) :
      Reads kind σ c none ((σ.push .double e).push .double c)

theorem reads_of_read (h : read kind σ c = some (word, σ')) : Reads kind σ c word σ' := by
  obtain ⟨q, cur⟩ := σ
  cases q with
  | none =>
      cases hc : kind c <;> simp only [read, hc, Option.some.injEq, Prod.mk.injEq,
        reduceCtorEq] at h <;> obtain ⟨rfl, rfl⟩ := h
      · exact .blank rfl hc
      · exact .enter .single (hc ▸ rfl) rfl (List.nil_sublist _) fun _ ↦ rfl
      · exact .enter .double (hc ▸ rfl) rfl (List.nil_sublist _) fun _ ↦ rfl
      · exact .enter .escaped (hc ▸ rfl) rfl (List.nil_sublist _) fun _ ↦ rfl
      · exact .push .none rfl fun _ ↦ ⟨rfl, hc⟩
  | single =>
      simp only [read] at h
      split at h <;> obtain ⟨rfl, rfl⟩ := Prod.mk.inj (Option.some.inj h)
      · next hc => exact .enter .none (hc ▸ rfl) rfl (List.nil_sublist _) nofun
      · exact .push .single rfl nofun
  | double =>
      simp only [read] at h
      split at h
      · next hc =>
          obtain ⟨rfl, rfl⟩ := Prod.mk.inj (Option.some.inj h)
          exact .enter .none (hc ▸ rfl) rfl (List.nil_sublist _) nofun
      · next hc =>
          obtain ⟨rfl, rfl⟩ := Prod.mk.inj (Option.some.inj h)
          exact .enter (.doubleEscaped c) (hc ▸ rfl) rfl (List.Sublist.refl _) nofun
      · cases h
      · obtain ⟨rfl, rfl⟩ := Prod.mk.inj (Option.some.inj h)
        exact .push .double rfl nofun
  | escaped =>
      obtain ⟨rfl, rfl⟩ := Prod.mk.inj (Option.some.inj h)
      exact .push .none rfl nofun
  | doubleEscaped e =>
      simp only [read] at h
      split at h <;> obtain ⟨rfl, rfl⟩ := Prod.mk.inj (Option.some.inj h)
      · exact .push .double rfl nofun
      · exact .push .double rfl nofun
      · exact .push .double rfl nofun
      · exact .kept e rfl

/-- What is in a word was in the command, in the same order. -/
theorem Reads.sublist (h : Reads kind σ c word σ') :
    (word.toList.flatten ++ σ'.text).Sublist (σ.text ++ [c]) := by
  have hcur : (σ.word.getD []).Sublist σ.text := List.sublist_append_left _ _
  cases h with
  | blank hq hc =>
      have hflatten : σ.word.toList.flatten = σ.word.getD [] := by cases σ.word <;> simp
      rw [hflatten, show State.init.text = ([] : List α) from rfl]
      exact hcur.append (List.nil_sublist _)
  | enter q hc hkept hq hnone => exact hcur.append hq
  | push q hq hnone =>
      rw [State.text_push σ hq]
      exact hcur.append (List.Sublist.refl _)
  | kept e hq =>
      rw [State.text_push _ rfl, State.text, hq]
      exact List.Sublist.refl _

theorem flatten_wordsFrom (h : wordsFrom kind σ s = some ws) :
    ws.flatten.Sublist (σ.text ++ s) := by
  induction s generalizing σ ws with
  | nil =>
      obtain ⟨-, rfl⟩ := wordsFrom_nil h
      rw [List.append_nil, State.text]
      refine List.Sublist.trans ?_ (List.sublist_append_left _ _)
      cases σ.word <;> simp
  | cons c s ih =>
      obtain ⟨word, σ', ws', hread, hws', rfl⟩ := wordsFrom_cons h
      have hc := (reads_of_read hread).sublist.append_right s
      rw [List.append_assoc, List.append_assoc] at hc
      rw [List.flatten_append]
      exact ((ih hws').append_left _).trans hc

/-- Every character of a word is one of the command. -/
theorem mem_of_mem_words (h : words kind s = some ws) (hw : w ∈ ws) (hc : c ∈ w) : c ∈ s :=
  (flatten_wordsFrom h).subset (List.mem_flatten.2 ⟨w, hw, hc⟩)

/-! ## What words are worth -/

/-- The number of the special characters. -/
def special (kind : α → Kind) (s : List α) : ℕ := s.countP fun c ↦ (kind c).special

/-- One for each word, and its special characters. -/
def cost (kind : α → Kind) (ws : List (List α)) : ℕ := (ws.map fun w ↦ 1 + special kind w).sum

@[simp] theorem special_nil : special kind [] = 0 := rfl

@[simp] theorem special_append : special kind (s ++ t) = special kind s + special kind t :=
  List.countP_append

theorem special_cons : special kind (c :: s) =
    special kind s + if (kind c).special then 1 else 0 := List.countP_cons

theorem special_eq_zero : special kind s = 0 ↔ ∀ c ∈ s, (kind c).special = false := by
  simp [special, List.countP_eq_zero]

theorem special_flatten_eq_zero (h : ∀ w ∈ ws, special kind w = 0) :
    special kind ws.flatten = 0 := by
  refine special_eq_zero.2 fun c hc ↦ ?_
  obtain ⟨w, hw, hc⟩ := List.mem_flatten.1 hc
  exact special_eq_zero.1 (h w hw) c hc

theorem special_of_sublist (kind : α → Kind) (h : s.Sublist t) :
    special kind s ≤ special kind t := h.countP_le

@[simp] theorem cost_nil : cost kind [] = 0 := rfl

@[simp] theorem cost_cons : cost kind (w :: ws) = 1 + special kind w + cost kind ws := List.sum_cons

@[simp] theorem cost_append : cost kind (ws ++ ts) = cost kind ws + cost kind ts := by
  simp only [cost, List.map_append, List.sum_append]

theorem cost_toList (kind : α → Kind) (word : Option (List α)) :
    cost kind word.toList ≤ 1 + special kind (word.getD []) := by
  cases word <;> simp

/-- What may still come of the word that has begun, or of the first one. -/
def State.worth (kind : α → Kind) (σ : State α) : ℕ := 1 + special kind σ.text

theorem State.cost_le_worth (kind : α → Kind) (σ : State α) :
    cost kind σ.word.toList ≤ σ.worth kind :=
  (cost_toList kind σ.word).trans
    (Nat.add_le_add_left (special_of_sublist kind (List.sublist_append_left _ _)) 1)

/-- No word and no special character of a word comes from nothing. -/
theorem Reads.cost_le (h : Reads kind σ c word σ') :
    cost kind word.toList + σ'.worth kind ≤ σ.worth kind + special kind [c] := by
  have hsub : word = none → σ'.worth kind ≤ σ.worth kind + special kind [c] := fun hword ↦ by
    have hle := special_of_sublist kind h.sublist
    rw [hword] at hle
    simp only [Option.toList_none, List.flatten_nil, List.nil_append, special_append] at hle
    rw [State.worth, State.worth]
    omega
  cases h with
  | blank hq hc =>
      have hblank : special kind [c] = 1 := by simp [special_cons, hc, Kind.special]
      rw [hblank]
      exact Nat.add_le_add_right (State.cost_le_worth kind σ) 1
  | enter q hc hkept hq hnone => exact (Nat.zero_add _).trans_le (hsub rfl)
  | push q hq hnone => exact (Nat.zero_add _).trans_le (hsub rfl)
  | kept e hq => exact (Nat.zero_add _).trans_le (hsub rfl)

theorem cost_wordsFrom_le (h : wordsFrom kind σ s = some ws) :
    cost kind ws ≤ σ.worth kind + special kind s := by
  induction s generalizing σ ws with
  | nil =>
      obtain ⟨-, rfl⟩ := wordsFrom_nil h
      exact State.cost_le_worth kind σ
  | cons c s ih =>
      obtain ⟨word, σ', ws', hread, hws', rfl⟩ := wordsFrom_cons h
      have hle := (reads_of_read hread).cost_le
      have hrest := ih hws'
      rw [cost_append, ← List.singleton_append, special_append]
      omega

theorem Kind.special_of_protects {k : Kind} (h : k.protects) : k.special := by
  cases k <;> first | rfl | cases h

/-- The words have all that the command has only if nothing in it is quoted. -/
theorem forall_of_le_costFrom (hq : σ.quoting = .none)
    (hword : ∀ w ∈ σ.word, w ≠ [] ∧ special kind w = 0)
    (h : wordsFrom kind σ s = some ws) (hcost : σ.worth kind + special kind s ≤ cost kind ws) :
    (∀ c ∈ s, kind c = .ordinary ∨ kind c = .blank) ∧ ∀ w ∈ ws, w ≠ [] ∧ special kind w = 0 := by
  induction s generalizing σ ws with
  | nil =>
      obtain ⟨-, rfl⟩ := wordsFrom_nil h
      exact ⟨List.forall_mem_nil _, fun w hw ↦ hword w (Option.mem_toList.1 hw)⟩
  | cons c s ih =>
      obtain ⟨word, σ', ws', hread, hws', rfl⟩ := wordsFrom_cons h
      have hreads := reads_of_read hread
      have hle := hreads.cost_le
      have hrest := cost_wordsFrom_le hws'
      rw [cost_append, ← List.singleton_append, special_append] at hcost
      have hcost' : σ'.worth kind + special kind s ≤ cost kind ws' := by omega
      cases hreads with
      | blank _ hc =>
          obtain ⟨hs, hall⟩ := ih rfl (fun w hw ↦ by cases hw) hws' hcost'
          refine ⟨List.forall_mem_cons.2 ⟨.inr hc, hs⟩, fun w hw ↦ ?_⟩
          exact (List.mem_append.1 hw).elim (fun hw ↦ hword w (Option.mem_toList.1 hw)) (hall w)
      | enter q hc hkept _ hnone =>
          have hworth : (σ.enter q).worth kind = σ.worth kind := by
            rw [State.worth, State.worth, State.text_enter, hnone hq, State.text, hkept]
          have hone : special kind [c] = 1 := by
            simp [special_cons, Kind.special_of_protects hc]
          simp only [Option.toList_none, cost_nil] at hcost
          omega
      | push q _ hnone =>
          obtain ⟨rfl, hc⟩ := hnone hq
          have hword' : ∀ w ∈ (σ.push .none c).word, w ≠ [] ∧ special kind w = 0 := by
            rintro _ ⟨⟩
            have hcur : special kind (σ.word.getD []) = 0 := by
              cases hw : σ.word with
              | none => rfl
              | some w => exact (hword w hw).2
            exact ⟨by simp, by simp [special_cons, hcur, hc, Kind.special, Kind.protects]⟩
          obtain ⟨hs, hall⟩ := ih rfl hword' hws' hcost'
          exact ⟨List.forall_mem_cons.2 ⟨.inl hc, hs⟩, hall⟩
      | kept e he => rw [hq] at he; cases he

theorem forall_of_le_cost (h : words kind s = some ws)
    (hcost : 1 + special kind s ≤ cost kind ws) :
    (∀ c ∈ s, kind c = .ordinary ∨ kind c = .blank) ∧ ∀ w ∈ ws, w ≠ [] ∧ special kind w = 0 :=
  forall_of_le_costFrom rfl (fun w hw ↦ by cases hw) h hcost

/-! ## Ordinary words -/

/-- A word that needs no quotes. -/
def Ordinary (kind : α → Kind) (w : List α) : Prop := w ≠ [] ∧ ∀ c ∈ w, kind c = .ordinary

theorem wordsFrom_append (hw : ∀ c ∈ w, kind c = .ordinary) (v : List α) :
    wordsFrom kind ⟨.none, some v⟩ (w ++ s) = wordsFrom kind ⟨.none, some (v ++ w)⟩ s := by
  induction w generalizing v with
  | nil => rw [List.nil_append, List.append_nil]
  | cons c w ih =>
      obtain ⟨hc, hw⟩ := List.forall_mem_cons.1 hw
      have hread : read kind ⟨.none, some v⟩ c = some (none, ⟨.none, some (v ++ [c])⟩) := by
        simp [read, hc, State.push]
      rw [List.cons_append, wordsFrom_of_read hread, ih hw, List.append_assoc]
      exact Option.map_id'

theorem wordsFrom_init_append (hw : Ordinary kind w) :
    wordsFrom kind .init (w ++ s) = wordsFrom kind ⟨.none, some w⟩ s := by
  obtain ⟨hne, hw⟩ := hw
  obtain ⟨c, w, rfl⟩ := List.exists_cons_of_ne_nil hne
  obtain ⟨hc, hw⟩ := List.forall_mem_cons.1 hw
  have hread : read kind .init c = some (none, ⟨.none, some [c]⟩) := by
    simp [read, hc, State.init, State.push]
  rw [List.cons_append, wordsFrom_of_read hread, wordsFrom_append hw]
  exact Option.map_id'

/-- Ordinary words with blanks between them are the words of the command. -/
theorem words_of_ordinary {b : α} (hb : kind b = .blank) (hw : Ordinary kind w)
    (hts : ∀ t ∈ ts, Ordinary kind t) :
    words kind (w ++ ts.flatMap fun t ↦ b :: t) = some (w :: ts) := by
  rw [words, wordsFrom_init_append hw]
  induction ts generalizing w with
  | nil => rfl
  | cons t ts ih =>
      obtain ⟨ht, hts⟩ := List.forall_mem_cons.1 hts
      have hread : read kind ⟨.none, some w⟩ b = some (some w, .init) := by simp [read, hb]
      rw [List.flatMap_cons, List.cons_append, wordsFrom_of_read hread, wordsFrom_init_append ht,
        ih ht hts]
      rfl

end Tidbits.Sequence.Shell
