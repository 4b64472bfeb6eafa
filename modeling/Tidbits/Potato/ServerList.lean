import Tidbits.Sequence.Links
import Tidbits.Transition.Refinement
import Mathlib.Data.Fintype.Card

/-!
# The list of servers

`po.servers` starts a doubly linked list through the servers of a process.
`_poTato_addServer()` and `_poTato_removeServer()` change it in the main thread,
store by store, and a signal handler may walk it between any two stores.

`ServerSet` is the list that the handlers mean: servers come and go at once.  A
server is in it from the store to `po.servers` on, and until the store that
takes it off the way along the `next` pointers; `exec_refines` says that nobody
who walks that way can tell the difference, whatever the other pointers are in
the meantime, and whatever becomes of the memory of servers that are in no list.
-/

namespace Tidbits.Potato

open Sequence Transition

/-- Where the main thread is in the list functions. -/
inductive ListPoint (ι : Type)
  | idle
  /-- In `_poTato_addServer()`, behind `s->next = po.servers`. -/
  | added (s : ι)
  /-- Behind `s->prev = NULL`. -/
  | addedPrev (s : ι)
  /-- Behind `po.servers->prev = s`, if there was a server. -/
  | addedBack (s : ι)
  /-- In `_poTato_removeServer()`, behind `s->next->prev = s->prev`, if there is a next server. -/
  | removed (s : ι)
deriving DecidableEq, Repr

/-- The server that is being added or removed. -/
def ListPoint.server {ι : Type} : ListPoint ι → Option ι
  | idle => none
  | added s | addedPrev s | addedBack s | removed s => some s

/-- The memory that the list functions and `termHandler()` touch. -/
structure Servers (ι : Type) where
  next : ι → Option ι
  prev : ι → Option ι
  isRunning : ι → Bool
  /-- `po.servers`. -/
  servers : Option ι
  /-- `po.terminating`. -/
  terminating : Bool
  /-- `exit()` was called. -/
  exited : Bool
  point : ListPoint ι

/-- What happens next. -/
inductive ServersAction (ι : Type)
  /-- `poServer_create()` has zeroed the server and calls `_poTato_addServer()`. -/
  | addServer (s : ι)
  /-- `poServer_destroy()` calls `_poTato_removeServer()`. -/
  | removeServer (s : ι)
  /-- The main thread makes the next store. -/
  | go
  /-- `poServer_listenerSetup()` has the last listener of the server. -/
  | running (s : ι)
  /-- The memory of a server that is in no list is used for something else. -/
  | overwrite (s : ι) (next prev : Option ι) (isRunning : Bool)
  /-- `SIGINT` is delivered. -/
  | sigint
deriving DecidableEq, Repr

variable {ι : Type} [DecidableEq ι]

namespace Servers

/-- The loop of `terminate()`, from the server `p` on.  The bound on the number of rounds is
there for a list without an end, on which the loop does not return. -/
def terminateLoop (σ : Servers ι) : ℕ → Option ι → Option (Servers ι)
  | _, none => some σ
  | 0, some _ => none
  | n + 1, some s =>
      if σ.isRunning s then
        { σ with isRunning := Function.update σ.isRunning s false }.terminateLoop n (σ.next s)
      else some { σ with exited := true }

variable [Fintype ι]

/-- The servers that a handler meets on its way from `po.servers` along the `next` pointers. -/
def visited (σ : Servers ι) : List ι := follow σ.next (Fintype.card ι) σ.servers

/-- `termHandler()`, with `terminate()`. -/
def termHandler (σ : Servers ι) : Option (Servers ι) :=
  if σ.terminating then some { σ with exited := true }
  else { σ with terminating := true }.terminateLoop (Fintype.card ι) σ.servers

/-- The next store of the main thread. -/
def go (σ : Servers ι) : Option (Servers ι) :=
  match σ.point with
  | .idle => none
  | .added s => some { σ with prev := Function.update σ.prev s none, point := .addedPrev s }
  | .addedPrev s =>
      some { σ with prev := (setLink σ.prev none σ.servers (some s)).1, point := .addedBack s }
  | .addedBack s => some { σ with servers := some s, point := .idle }
  | .removed s =>
      let link := setLink σ.next σ.servers (σ.prev s) (σ.next s)
      some { σ with next := link.1, servers := link.2, point := .idle }

/-- The transitions. -/
def step (σ : Servers ι) (a : ServersAction ι) : Option (Servers ι) :=
  if σ.exited then none
  else
    match a with
    | .addServer s =>
        if σ.point = .idle then
          some { σ with
            next := Function.update σ.next s σ.servers
            isRunning := Function.update σ.isRunning s false
            point := .added s }
        else none
    | .removeServer s =>
        if σ.point = .idle then
          some { σ with prev := (setLink σ.prev none (σ.next s) (σ.prev s)).1, point := .removed s }
        else none
    | .go => σ.go
    | .running s =>
        if σ.point = .idle then
          some { σ with isRunning := Function.update σ.isRunning s true }
        else none
    | .overwrite s next prev isRunning =>
        some { σ with
          next := Function.update σ.next s next
          prev := Function.update σ.prev s prev
          isRunning := Function.update σ.isRunning s isRunning }
    | .sigint => σ.termHandler

/-- What the callers see to: a server that is added is in no list, one that is removed or gets its
last listener is in the list, and memory that is used for something else is of no server. -/
def Owned (σ : Servers ι) : ServersAction ι → Prop
  | .addServer s => s ∉ σ.visited
  | .removeServer s | .running s => s ∈ σ.visited
  | .overwrite s _ _ _ => s ∉ σ.visited ∧ σ.point.server ≠ some s
  | .go | .sigint => True

instance decidableOwned : DecidableRel (Owned : Servers ι → ServersAction ι → Prop) := fun σ a ↦
  match a with
  | .addServer s => inferInstanceAs (Decidable (s ∉ σ.visited))
  | .removeServer s | .running s => inferInstanceAs (Decidable (s ∈ σ.visited))
  | .overwrite s _ _ _ => inferInstanceAs (Decidable (s ∉ σ.visited ∧ σ.point.server ≠ some s))
  | .go | .sigint => instDecidableTrue

omit [DecidableEq ι] [Fintype ι] in
/-- The process starts without servers, and with any memory. -/
def start (next prev : ι → Option ι) (isRunning : ι → Bool) : Servers ι where
  next := next
  prev := prev
  isRunning := isRunning
  servers := none
  terminating := false
  exited := false
  point := .idle

end Servers

/-! ## The list that the handlers mean -/

/-- The servers of a process, each with its `isRunning`. -/
structure ServerSet (ι : Type) where
  /-- The servers, the newest first. -/
  live : List ι
  isRunning : ι → Bool
  terminating : Bool
  exited : Bool

/-- What happens to them. -/
inductive ServerEvent (ι : Type)
  | add (s : ι)
  | remove (s : ι)
  | running (s : ι)
  | sigint
deriving DecidableEq, Repr

namespace ServerSet

/-- The first `SIGINT` stops the servers if all of them run, and any other one ends the process. -/
def sigint (t : ServerSet ι) : ServerSet ι :=
  if t.terminating = false ∧ ∀ s ∈ t.live, t.isRunning s = true then
    { t with
      isRunning := fun s ↦ if s ∈ t.live then false else t.isRunning s
      terminating := true }
  else { t with terminating := true, exited := true }

/-- The transitions. -/
def step (t : ServerSet ι) (e : ServerEvent ι) : Option (ServerSet ι) :=
  if t.exited then none
  else
    match e with
    | .add s =>
        some { t with live := s :: t.live, isRunning := Function.update t.isRunning s false }
    | .remove s => some { t with live := t.live.filter (· ≠ s) }
    | .running s => some { t with isRunning := Function.update t.isRunning s true }
    | .sigint => some t.sigint

omit [DecidableEq ι] in
/-- The process starts without servers. -/
def start (isRunning : ι → Bool) : ServerSet ι := ⟨[], isRunning, false, false⟩

end ServerSet

namespace Servers

omit [DecidableEq ι] in
/-- The event of a step: a server is added with the store to `po.servers`, and removed with the one
to the pointer in front of it. -/
def event (σ : Servers ι) : ServersAction ι → Option (ServerEvent ι)
  | .go =>
      match σ.point with
      | .addedBack s => some (.add s)
      | .removed s => some (.remove s)
      | .idle | .added _ | .addedPrev _ => none
  | .running s => some (.running s)
  | .sigint => some .sigint
  | .addServer _ | .removeServer _ | .overwrite _ _ _ _ => none

omit [DecidableEq ι] in
/-- A server that is being added has the pointers that the stores so far gave it. -/
def Adding (σ : Servers ι) (l : List ι) (s : ι) : Prop :=
  s ∉ l ∧ σ.isRunning s = false ∧ σ.next s = σ.servers

/-- The backward pointers, at each point of the list functions. -/
def Backward (σ : Servers ι) (l : List ι) : Prop :=
  match σ.point with
  | .idle => Linked σ.next σ.prev σ.servers l.getLast? l
  | .added s => Linked σ.next σ.prev σ.servers l.getLast? l ∧ σ.Adding l s
  | .addedPrev s => Linked σ.next σ.prev σ.servers l.getLast? l ∧ σ.Adding l s ∧ σ.prev s = none
  | .addedBack s =>
      Linked σ.next σ.prev (some s) (s :: l).getLast? (s :: l) ∧ σ.Adding l s
  | .removed s =>
      s ∈ l ∧
        Linked (setLink σ.next σ.servers (σ.prev s) (σ.next s)).1 σ.prev
          (setLink σ.next σ.servers (σ.prev s) (σ.next s)).2 (l.filter (· ≠ s)).getLast?
          (l.filter (· ≠ s))

/-- The pointers against the list: the way forward is that of the list at each point. -/
structure Represents (σ : Servers ι) (l : List ι) : Prop where
  forward : Path σ.next σ.servers l none
  nodup : l.Nodup
  backward : σ.Backward l

/-- The memory against what the handlers mean. -/
structure Shows (σ : Servers ι) (t : ServerSet ι) : Prop where
  represents : σ.Represents t.live
  isRunning : σ.exited = false → ∀ s ∈ t.live, σ.isRunning s = t.isRunning s
  terminating : σ.terminating = t.terminating
  exited : σ.exited = t.exited

namespace Represents

variable {σ σ' : Servers ι} {l l₁ l₂ : List ι} {s : ι}

/-- A handler visits the servers of the list. -/
theorem visited_eq [Fintype ι] (h : σ.Represents l) : σ.visited = l :=
  follow_eq h.forward h.nodup.length_le_card

/-- The list is entered at `po.servers`. -/
theorem start (next prev : ι → Option ι) (isRunning : ι → Bool) :
    (Servers.start next prev isRunning).Represents [] :=
  ⟨rfl, List.nodup_nil, ⟨rfl, rfl, List.nodup_nil⟩⟩

/-- Other memory changes, but for a server that is being added. -/
theorem congr (h : σ.Represents l) (hservers : σ'.servers = σ.servers)
    (hpoint : σ'.point = σ.point) (hnext : σ'.next = σ.next) (hprev : σ'.prev = σ.prev)
    (hrunning : ∀ s ∉ l, σ'.isRunning s = σ.isRunning s) : σ'.Represents l := by
  refine ⟨by rw [hnext, hservers]; exact h.forward, h.nodup, ?_⟩
  have hback := h.backward
  have hadding : ∀ s, σ.Adding l s → σ'.Adding l s := by
    rintro s ⟨hs, hrun, hlink⟩
    exact ⟨hs, (hrunning s hs).trans hrun, by rw [hnext, hservers]; exact hlink⟩
  unfold Backward at hback ⊢
  rw [hpoint]
  split at hback <;> rw [hnext, hprev] <;> (try rw [hservers])
  · exact hback
  · exact ⟨hback.1, hadding _ hback.2⟩
  · exact ⟨hback.1, hadding _ hback.2.1, hback.2.2⟩
  · exact ⟨hback.1, hadding _ hback.2⟩
  · exact hback

/-- A new server points to the list. -/
theorem addServer (h : σ.Represents l) (hpoint : σ.point = .idle) (hs : s ∉ l) :
    Represents { σ with
      next := Function.update σ.next s σ.servers
      isRunning := Function.update σ.isRunning s false
      point := .added s } l := by
  have hback : Linked σ.next σ.prev σ.servers l.getLast? l := by
    have hback := h.backward
    unfold Backward at hback
    rwa [hpoint] at hback
  have hnext : ∀ x ∈ l, Function.update σ.next s σ.servers x = σ.next x := by
    intro x hx
    refine Function.update_of_ne ?_ _ _
    rintro rfl
    exact hs hx
  refine ⟨h.forward.congr hnext, h.nodup, hback.congr hnext fun _ _ ↦ rfl, hs, ?_, ?_⟩
  · exact Function.update_self s false σ.isRunning
  · exact Function.update_self s σ.servers σ.next

/-- The first server points back to the new one, and then the list starts with that. -/
theorem backLink (hback : Linked σ.next σ.prev σ.servers l.getLast? l) (hs : σ.Adding l s)
    (hprev : σ.prev s = none) :
    Linked σ.next (setLink σ.prev none σ.servers (some s)).1 (some s) (s :: l).getLast?
      (s :: l) := by
  obtain ⟨hmem, -, hlink⟩ := hs
  have hcons := hback.cons hmem
  have hnext : Function.update σ.next s σ.servers = σ.next := by
    rw [← hlink]
    exact Function.update_eq_self s σ.next
  have hne : σ.servers ≠ some s := by
    intro heq
    have hhead := hback.forward.head_eq
    rw [heq] at hhead
    exact hmem (List.mem_of_head? hhead.symm)
  have hprev' : Function.update (setLink σ.prev l.getLast? σ.servers (some s)).1 s none =
      (setLink σ.prev none σ.servers (some s)).1 := by
    have hkeep : (setLink σ.prev none σ.servers (some s)).1 s = none :=
      (setLink_apply hne).trans hprev
    have hsame : (setLink σ.prev l.getLast? σ.servers (some s)).1 =
        (setLink σ.prev none σ.servers (some s)).1 := by
      cases σ.servers <;> rfl
    rw [hsame]
    exact (congrArg (Function.update _ s) hkeep.symm).trans (Function.update_eq_self s _)
  rw [hnext, hprev'] at hcons
  have hlast := hcons.last_eq
  rwa [hlast] at hcons

/-- A server of the list is off the way back from the one behind it. -/
theorem removeServer (h : σ.Represents l) (hpoint : σ.point = .idle) (hs : s ∈ l) :
    Represents { σ with
      prev := (setLink σ.prev none (σ.next s) (σ.prev s)).1
      point := .removed s } l := by
  have hback : Linked σ.next σ.prev σ.servers l.getLast? l := by
    have hback := h.backward
    unfold Backward at hback
    rwa [hpoint] at hback
  refine ⟨h.forward, h.nodup, hs, ?_⟩
  obtain ⟨l₁, l₂, rfl⟩ := List.append_of_mem hs
  have hnodup := List.nodup_middle.mp h.nodup
  have hfilter : (l₁ ++ s :: l₂).filter (· ≠ s) = l₁ ++ l₂ := by
    have hnot := (List.nodup_cons.mp hnodup).1
    have hkeep : (l₁ ++ l₂).filter (· ≠ s) = l₁ ++ l₂ := by
      refine List.filter_eq_self.mpr fun x hx ↦ decide_eq_true ?_
      rintro rfl
      exact hnot hx
    rw [List.filter_append, List.filter_cons_of_neg (by simp), ← List.filter_append, hkeep]
  have hremove := hback.remove
  rw [hremove.last_eq] at hremove
  have hsame : (setLink σ.prev (l₁ ++ s :: l₂).getLast? (σ.next s) (σ.prev s)).1 =
      (setLink σ.prev none (σ.next s) (σ.prev s)).1 := by
    cases σ.next s <;> rfl
  rw [hsame] at hremove
  -- the first store spares the links of the server itself
  have hself : (setLink σ.prev none (σ.next s) (σ.prev s)).1 s = σ.prev s := by
    refine setLink_apply fun heq ↦ ?_
    rw [hback.forward.next_eq] at heq
    exact (List.nodup_cons.mp hnodup).1 (List.mem_append_right _ (List.mem_of_head? heq))
  change Linked (setLink σ.next σ.servers ((setLink σ.prev none (σ.next s) (σ.prev s)).1 s)
    (σ.next s)).1 _ (setLink σ.next σ.servers ((setLink σ.prev none (σ.next s) (σ.prev s)).1 s)
      (σ.next s)).2 _ _
  rw [hself, hfilter]
  exact hremove

/-- The memory of a server that is in no list is its own. -/
theorem overwrite (h : σ.Represents l) (hs : s ∉ l) (hpoint : σ.point.server ≠ some s)
    (next prev : Option ι) (isRunning : Bool) :
    Represents { σ with
      next := Function.update σ.next s next
      prev := Function.update σ.prev s prev
      isRunning := Function.update σ.isRunning s isRunning } l := by
  have hnext : ∀ {x}, x ≠ s → Function.update σ.next s next x = σ.next x := fun hne ↦
    Function.update_of_ne hne _ _
  have hprev : ∀ {x}, x ≠ s → Function.update σ.prev s prev x = σ.prev x := fun hne ↦
    Function.update_of_ne hne _ _
  have hne : ∀ {x}, x ∈ l → x ≠ s := fun hx heq ↦ hs (heq ▸ hx)
  have hadding : ∀ {x}, x ≠ s → σ.Adding l x → Adding { σ with
      next := Function.update σ.next s next
      prev := Function.update σ.prev s prev
      isRunning := Function.update σ.isRunning s isRunning } l x := fun hx ⟨hmem, hrun, hlink⟩ ↦
    ⟨hmem, (Function.update_of_ne hx _ _).trans hrun, (hnext hx).trans hlink⟩
  refine ⟨h.forward.congr fun x hx ↦ hnext (hne hx), h.nodup, ?_⟩
  have hback := h.backward
  have hlinked : Linked σ.next σ.prev σ.servers l.getLast? l →
      Linked (Function.update σ.next s next) (Function.update σ.prev s prev) σ.servers
        l.getLast? l := fun hl ↦
    hl.congr (fun x hx ↦ hnext (hne hx)) fun x hx ↦ hprev (hne hx)
  unfold Backward at hback ⊢
  split at hback <;> rename_i hp <;> simp only [hp]
  · exact hlinked hback
  · have hx : _ ≠ s := fun heq ↦ hpoint (by rw [hp, ← heq]; rfl)
    exact ⟨hlinked hback.1, hadding hx hback.2⟩
  · have hx : _ ≠ s := fun heq ↦ hpoint (by rw [hp, ← heq]; rfl)
    exact ⟨hlinked hback.1, hadding hx hback.2.1, (hprev hx).trans hback.2.2⟩
  · have hx : _ ≠ s := fun heq ↦ hpoint (by rw [hp, ← heq]; rfl)
    refine ⟨hback.1.congr (fun y hy ↦ ?_) fun y hy ↦ ?_, hadding hx hback.2⟩ <;>
      rcases List.mem_cons.mp hy with rfl | hy
    · exact hnext hx
    · exact hnext (hne hy)
    · exact hprev hx
    · exact hprev (hne hy)
  · obtain ⟨hmem, hback⟩ := hback
    refine ⟨hmem, ?_⟩
    rw [hnext (hne hmem), hprev (hne hmem), setLink_snd σ.next]
    refine hback.congr (fun y hy ↦ setLink_congr (hnext ?_)) fun y hy ↦ hprev ?_ <;>
      exact hne (List.mem_of_mem_filter hy)

end Represents

/-! ## The handler -/

/-- The loop of `terminate()` reaches the end of the list: it stops all servers, or it ends the
process at the first one that does not run. -/
theorem terminateLoop_eq {σ : Servers ι} {p : Option ι} {l : List ι} {n : ℕ}
    (h : Path σ.next p l none) (hl : l.Nodup) (hn : l.length ≤ n) :
    ∃ isRunning exited, σ.terminateLoop n p =
        some { σ with isRunning := isRunning, exited := exited } ∧
      (∀ s ∉ l, isRunning s = σ.isRunning s) ∧
      ((∀ s ∈ l, σ.isRunning s = true) → exited = σ.exited ∧ ∀ s ∈ l, isRunning s = false) ∧
      (¬ (∀ s ∈ l, σ.isRunning s = true) → exited = true) := by
  induction l generalizing σ p n with
  | nil =>
      cases h
      refine ⟨σ.isRunning, σ.exited, ?_, fun _ _ ↦ rfl, fun _ ↦ ⟨rfl, ?_⟩, fun hno ↦ ?_⟩
      · cases n <;> rfl
      · exact fun s hs ↦ absurd hs List.not_mem_nil
      · exact absurd (fun s hs ↦ absurd hs List.not_mem_nil) hno
  | cons s l ih =>
      obtain ⟨rfl, hpath⟩ := h
      obtain ⟨hs, hl⟩ := List.nodup_cons.mp hl
      obtain _ | n := n
      · exact absurd hn (Nat.not_succ_le_zero _)
      · rw [terminateLoop]
        by_cases hrun : σ.isRunning s = true
        · rw [if_pos hrun]
          obtain ⟨isRunning, exited, heq, hother, hall, hsome⟩ :=
            ih (σ := { σ with isRunning := Function.update σ.isRunning s false }) hpath hl
              (Nat.le_of_succ_le_succ hn)
          have hkeep : ∀ x ∈ l, Function.update σ.isRunning s false x = σ.isRunning x := by
            intro x hx
            refine Function.update_of_ne ?_ _ _
            rintro rfl
            exact hs hx
          refine ⟨isRunning, exited, heq, fun x hx ↦ ?_, fun h ↦ ?_, fun hno ↦ ?_⟩
          · obtain ⟨hne, hx⟩ := not_or.mp (mt List.mem_cons.mpr hx)
            exact (hother x hx).trans (Function.update_of_ne hne _ _)
          · obtain ⟨hexited, hstopped⟩ := hall fun x hx ↦
              (hkeep x hx).trans (h x (List.mem_cons_of_mem _ hx))
            refine ⟨hexited, fun x hx ↦ ?_⟩
            rcases List.mem_cons.mp hx with rfl | hx
            · exact (hother x hs).trans (Function.update_self _ _ _)
            · exact hstopped x hx
          · refine hsome fun h ↦ hno fun x hx ↦ ?_
            rcases List.mem_cons.mp hx with rfl | hx
            · exact hrun
            · exact (hkeep x hx).symm.trans (h x hx)
        · rw [if_neg hrun]
          refine ⟨σ.isRunning, true, rfl, fun _ _ ↦ rfl, fun h ↦ ?_, fun _ ↦ rfl⟩
          exact absurd (h s List.mem_cons_self) hrun

namespace Shows

variable [Fintype ι] {σ σ' : Servers ι} {t : ServerSet ι}

/-- `SIGINT` does to the servers what it is meant to do. -/
theorem sigint (h : σ.Shows t) (hexited : σ.exited = false) :
    ∃ σ', σ.termHandler = some σ' ∧ σ'.Shows t.sigint := by
  have hrep := h.represents
  have hexited' : t.exited = false := h.exited.symm.trans hexited
  have hrunning : (∀ s ∈ t.live, σ.isRunning s = true) ↔ ∀ s ∈ t.live, t.isRunning s = true :=
    forall₂_congr fun s hs ↦ by rw [h.isRunning hexited s hs]
  unfold termHandler ServerSet.sigint
  by_cases hterm : σ.terminating = true
  · have hterm' : t.terminating = true := h.terminating.symm.trans hterm
    rw [if_pos hterm, if_neg (by simp [hterm'])]
    refine ⟨_, rfl, ?_, fun hno ↦ ?_, hterm, rfl⟩
    · exact hrep.congr rfl rfl rfl rfl fun _ _ ↦ rfl
    · cases hno
  · have hterm' : t.terminating = false := h.terminating.symm.trans (by simpa using hterm)
    obtain ⟨isRunning, exited, heq, hother, hall, hsome⟩ :=
      terminateLoop_eq (σ := { σ with terminating := true }) hrep.forward hrep.nodup
        hrep.nodup.length_le_card
    rw [if_neg hterm, heq]
    refine ⟨_, rfl, ?_⟩
    by_cases hrun : ∀ s ∈ t.live, t.isRunning s = true
    · obtain ⟨hstay, hstopped⟩ := hall (hrunning.mpr hrun)
      rw [if_pos ⟨hterm', hrun⟩]
      refine ⟨hrep.congr rfl rfl rfl rfl hother, fun _ s hs ↦ ?_, rfl, hstay.trans h.exited⟩
      exact (hstopped s hs).trans (if_pos hs).symm
    · have hgone := hsome fun h' ↦ hrun (hrunning.mp h')
      rw [if_neg fun h' ↦ hrun h'.2]
      refine ⟨hrep.congr rfl rfl rfl rfl hother, fun hno ↦ ?_, rfl, hgone⟩
      exact absurd (hgone.symm.trans hno) (by decide)

omit [Fintype ι] in
/-- The next store of the main thread changes what the handlers see, or does not. -/
theorem go (h : σ.Shows t) (hexited : σ.exited = false) (hs : σ.go = some σ') :
    (σ.event .go = none → σ'.Shows t) ∧
      ∀ e, σ.event .go = some e → ∃ t', t.step e = some t' ∧ σ'.Shows t' := by
  obtain ⟨hforward, hnodup, hback⟩ := h.represents
  have hexited' : t.exited = false := h.exited.symm.trans hexited
  unfold Servers.go at hs
  unfold Backward at hback
  unfold event
  cases hpoint : σ.point with
  | idle => simp [hpoint] at hs
  | added s =>
      rw [hpoint] at hs hback
      cases hs
      obtain ⟨hback, hmem, hadding⟩ := hback
      refine ⟨fun _ ↦ ⟨⟨hforward, hnodup, ?_⟩, h.isRunning, h.terminating, h.exited⟩,
        fun _ he ↦ by cases he⟩
      refine ⟨hback.congr (fun _ _ ↦ rfl) fun x hx ↦ ?_, ⟨hmem, hadding⟩,
        Function.update_self _ _ _⟩
      refine Function.update_of_ne ?_ _ _
      rintro rfl
      exact hmem hx
  | addedPrev s =>
      rw [hpoint] at hs hback
      cases hs
      obtain ⟨hback, hadding, hprev⟩ := hback
      refine ⟨fun _ ↦ ⟨⟨hforward, hnodup, ?_⟩, h.isRunning, h.terminating, h.exited⟩,
        fun _ he ↦ by cases he⟩
      exact ⟨Represents.backLink hback hadding hprev, hadding⟩
  | addedBack s =>
      rw [hpoint] at hs hback
      cases hs
      obtain ⟨hback, hmem, hrun, hlink⟩ := hback
      refine ⟨fun he ↦ (by cases he), fun e he ↦ ?_⟩
      cases he
      refine ⟨{ t with live := s :: t.live, isRunning := Function.update t.isRunning s false },
        by simp [ServerSet.step, hexited'], ⟨hback.forward, hback.nodup, hback⟩,
        fun _ x hx ↦ ?_, h.terminating, h.exited⟩
      rcases List.mem_cons.mp hx with rfl | hx
      · exact hrun.trans (Function.update_self x false t.isRunning).symm
      · have hne : x ≠ s := fun heq ↦ hmem (heq ▸ hx)
        exact (h.isRunning hexited x hx).trans (Function.update_of_ne hne _ _).symm
  | removed s =>
      rw [hpoint] at hs hback
      cases hs
      refine ⟨fun he ↦ (by cases he), fun e he ↦ ?_⟩
      cases he
      refine ⟨{ t with live := t.live.filter (· ≠ s) }, by simp [ServerSet.step, hexited'],
        ⟨hback.2.forward, hback.2.nodup, hback.2⟩, fun _ x hx ↦ ?_, h.terminating, h.exited⟩
      exact h.isRunning hexited x (List.mem_of_mem_filter hx)

end Shows

/-! ## Refinement -/

variable [Fintype ι]

/-- A step happens to the servers all at once, or not at all. -/
theorem refines : Refines (step (ι := ι)) Owned event ServerSet.step Shows where
  stutter {σ σ' t a} h ha hs he := by
    obtain ⟨hexited, hs⟩ := Option.ite_none_left_eq_some.mp hs
    have hexited : σ.exited = false := by simpa using hexited
    have hvisited := h.represents.visited_eq
    cases a with
    | addServer s =>
        obtain ⟨hpoint, hs⟩ := Option.ite_none_right_eq_some.mp hs
        cases hs
        have hmem : s ∉ t.live := hvisited ▸ ha
        refine ⟨h.represents.addServer hpoint hmem, fun _ x hx ↦ ?_, h.terminating, h.exited⟩
        have hne : x ≠ s := fun heq ↦ hmem (heq ▸ hx)
        exact (Function.update_of_ne hne _ _).trans (h.isRunning hexited x hx)
    | removeServer s =>
        obtain ⟨hpoint, hs⟩ := Option.ite_none_right_eq_some.mp hs
        cases hs
        have hmem : s ∈ t.live := hvisited ▸ ha
        exact ⟨h.represents.removeServer hpoint hmem, h.isRunning, h.terminating, h.exited⟩
    | go => exact (h.go hexited hs).1 he
    | overwrite s next prev isRunning =>
        cases hs
        have hmem : s ∉ t.live := hvisited ▸ ha.1
        refine ⟨h.represents.overwrite hmem ha.2 next prev isRunning, fun _ x hx ↦ ?_,
          h.terminating, h.exited⟩
        have hne : x ≠ s := fun heq ↦ hmem (heq ▸ hx)
        exact (Function.update_of_ne hne _ _).trans (h.isRunning hexited x hx)
    | running | sigint => cases he
  happens {σ σ' t a e} h ha hs he := by
    obtain ⟨hexited, hs⟩ := Option.ite_none_left_eq_some.mp hs
    have hexited : σ.exited = false := by simpa using hexited
    have hexited' : t.exited = false := h.exited.symm.trans hexited
    cases a with
    | go => exact (h.go hexited hs).2 e he
    | running s =>
        obtain ⟨hpoint, hs⟩ := Option.ite_none_right_eq_some.mp hs
        cases hs
        cases he
        have hmem : s ∈ t.live := h.represents.visited_eq ▸ ha
        refine ⟨{ t with isRunning := Function.update t.isRunning s true },
          by simp [ServerSet.step, hexited'], h.represents.congr rfl rfl rfl rfl fun x hx ↦ ?_,
          fun _ x hx ↦ ?_, h.terminating, h.exited⟩
        · refine Function.update_of_ne ?_ _ _
          rintro rfl
          exact hx hmem
        · by_cases hne : x = s
          · subst hne
            exact (Function.update_self _ _ _).trans (Function.update_self x true t.isRunning).symm
          · exact (Function.update_of_ne hne _ _).trans
              ((h.isRunning hexited x hx).trans (Function.update_of_ne hne _ _).symm)
    | sigint =>
        cases he
        obtain ⟨σ₁, heq, hshows⟩ := h.sigint hexited
        obtain rfl := Option.some.inj (heq.symm.trans hs)
        exact ⟨t.sigint, by simp [ServerSet.step, hexited'], hshows⟩
    | addServer | removeServer | overwrite => cases he

/-- **The signal handlers see a list of servers that changes at once.**  However the stores of the
list functions, the deliveries of `SIGINT` and the uses of other memory are interleaved, the events
are a run of the list that is meant; the servers that a handler visits are those of that list, and
each of them once; what the handler does to them is what it does there; and in a process that has
not ended the handler returns. -/
theorem exec_refines {next prev : ι → Option ι} {isRunning : ι → Bool}
    {as : List (ServersAction ι)} {σ : Servers ι}
    (h : exec step Owned (start next prev isRunning) as = some σ) :
    ∃ t, exec ServerSet.step Any (.start isRunning)
        (events step event (start next prev isRunning) as) = some t ∧
      Path σ.next σ.servers t.live none ∧ σ.visited = t.live ∧ t.live.Nodup ∧
      σ.terminating = t.terminating ∧ σ.exited = t.exited ∧
      (σ.exited = false → (∀ s ∈ t.live, σ.isRunning s = t.isRunning s) ∧
        (step σ .sigint).isSome = true) := by
  have hstart : (start next prev isRunning).Shows (.start isRunning) :=
    ⟨.start next prev isRunning, fun _ _ hs ↦ absurd hs List.not_mem_nil, rfl, rfl⟩
  obtain ⟨t, ht, hshows⟩ := refines.exec hstart h
  refine ⟨t, ht, hshows.represents.forward, hshows.represents.visited_eq, hshows.represents.nodup,
    hshows.terminating, hshows.exited, fun hexited ↦ ⟨hshows.isRunning hexited, ?_⟩⟩
  obtain ⟨σ', heq, -⟩ := hshows.sigint hexited
  simp [step, hexited, heq]

/-- `SIGINT` arrives while the second server is being added, and the first one is removed before
that. -/
def interrupted : List (ServersAction (Fin 2)) :=
  [.addServer 0, .go, .go, .go, .running 0, .addServer 1, .go, .sigint, .go, .go, .removeServer 0]

theorem exec_refines_interrupted :
    ∃ σ t, exec step Owned (start (fun _ ↦ none) (fun _ ↦ none) fun _ ↦ false) interrupted =
        some σ ∧ σ.visited = [1, 0] ∧ σ.visited = t.live ∧ σ.terminating = t.terminating ∧
      exec ServerSet.step Any (.start fun _ ↦ false) [.add 0, .running 0, .sigint, .add 1] =
        some t := by
  have hrun : (exec step Owned (start (fun _ ↦ none) (fun _ ↦ none) fun _ ↦ false)
      interrupted).any (fun σ ↦ decide (σ.visited = [1, 0])) = true := by decide
  obtain ⟨σ, hσ, hvisited⟩ := (Option.any_eq_true _ _).mp hrun
  obtain ⟨t, ht, -, hlive, -, hterminating, -⟩ := exec_refines hσ
  have hevents : events step event (start (fun _ ↦ none) (fun _ ↦ none) fun _ ↦ false)
      interrupted = [.add 0, .running 0, .sigint, .add 1] := by decide
  exact ⟨σ, t, hσ, of_decide_eq_true hvisited, hlive, hterminating, hevents ▸ ht⟩

end Servers

end Tidbits.Potato
