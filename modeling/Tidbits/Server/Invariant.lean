import Tidbits.Server.Service
import Tidbits.Server.Step

/-!
# The invariant of a running server

`Core` adds to the order of the connections what the server mutex and the place
of the master say about them.  It is kept by every step in which `doEvent` takes
up a connection event

* that acts only on the connection that `P` allows (`Takes`), and
* in the build without threads, whose connection is open (`TakesOpen`).

With the relation that always holds for `P`, and in the build with threads, these
are no conditions at all.
-/

namespace Tidbits.Server

variable {cfg : Config} {P : ℕ → ℕ → Prop}

namespace ConnEvent

/-- `doEvent` does something for the event, as long as the connection is not skipped. -/
def actsOn (e : ConnEvent cfg) (conn : Connection) : Bool :=
  conn.noCallback || e.input || e.output || e.hangUp || e.error

end ConnEvent

namespace Master

/-- The master holds the server mutex. -/
def Holds : Master cfg → Prop
  | .outside | .unlocked | .epollWait | .gotEvents _ | .runTask _ _ => False
  | _ => True

/-- What the master knows of the connection whose event it works on. -/
def Timely (P : ℕ → ℕ → Prop) (s : Store cfg) : Master cfg → Prop
  | .noCallback e _ | .setReady e _ =>
      0 ≤ (s.conn e.conn).fd ∧ P e.source (s.conn e.conn).acceptNo
  | .serving e _ _ =>
      cfg.threadPool = false ∧ 0 ≤ (s.conn e.conn).fd ∧ P e.source (s.conn e.conn).acceptNo
  | .runTask e _ => P e.source (s.conn e.conn).acceptNo
  | .eventEnd e _ => (e.hangUp || e.error) = false ∨ P e.source (s.conn e.conn).acceptNo
  | _ => True

theorem Timely.of_sameUse {s s' : Store cfg} {m : Master cfg} (h : m.Timely P s)
    (huse : ∀ c, (s.conn c).SameUse (s'.conn c)) : m.Timely P s' := by
  cases m with
  | noCallback e rest =>
      have hsame := huse e.conn
      rw [Timely, hsame.fd, hsame.acceptNo]
      exact h
  | setReady e rest =>
      have hsame := huse e.conn
      rw [Timely, hsame.fd, hsame.acceptNo]
      exact h
  | serving e rest phase =>
      have hsame := huse e.conn
      rw [Timely, hsame.fd, hsame.acceptNo]
      exact h
  | runTask e rest =>
      rw [Timely, (huse e.conn).acceptNo]
      exact h
  | eventEnd e rest =>
      rw [Timely, (huse e.conn).acceptNo]
      exact h
  | _ => trivial

/-- While the master does not hold the server mutex, connections may close. -/
theorem Timely.of_ages {s s' : Store cfg} {m : Master cfg} (h : m.Timely P s) (hm : ¬ m.Holds)
    (hages : s.Ages s') : m.Timely P s' := by
  cases m with
  | runTask e rest =>
      rw [Timely, (hages e.conn).1]
      exact h
  | outside => trivial
  | unlocked => trivial
  | epollWait => trivial
  | gotEvents batch => trivial
  | _ => exact absurd trivial hm

end Master

namespace POServer

/-- The connection event that `doEvent` takes up in the step. -/
def takesUp (s : POServer cfg) : Action cfg → Option (ConnEvent cfg)
  | .proceed _ _ =>
      match s.master with
      | .events (.conn e :: _) => some e
      | _ => none
  | _ => none

/-- In the build without threads, the connection of an event that `doEvent` takes up is open. -/
def TakesOpen (s : POServer cfg) (a : Action cfg) : Prop :=
  cfg.threadPool = true ∨ ∀ e ∈ s.takesUp a, (s.store.conn e.conn).fd ≠ -1

/-- An event that `doEvent` takes up and acts on was fetched for a connection that `P` relates to
the one that its struct is used for now. -/
def Takes (P : ℕ → ℕ → Prop) (s : POServer cfg) (a : Action cfg) : Prop :=
  ∀ e ∈ s.takesUp a, (cfg.threadPool = true ∧ (s.store.conn e.conn).fd = -1) ∨
    e.actsOn (s.store.conn e.conn) = false ∨ P e.source (s.store.conn e.conn).acceptNo

instance (s : POServer cfg) (a : Action cfg) : Decidable (s.TakesOpen a) :=
  inferInstanceAs (Decidable (_ ∨ _))

/-- The invariant of a server that runs. -/
structure Core (P : ℕ → ℕ → Prop) (s : POServer cfg) : Prop where
  sound : s.store.Sound P
  mutex : s.serverMutex = some .master ↔ s.master.Holds
  finishing : ∀ i, s.store.Finishing i → s.serverMutex = some (.worker i)
  timely : s.master.Timely P s.store

/-- What a step does to a server in order. -/
structure Steps (P : ℕ → ℕ → Prop) (s s' : POServer cfg) : Prop where
  change : s.store.Change P s'.store
  core : s'.store.exited = false → s'.Core P
  /-- When the process ends, someone holds the server mutex. -/
  locked : s'.store.exited = true → s'.serverMutex ≠ none

variable {s s' : POServer cfg}

theorem core_start (listenerFd : ListenerId cfg → ℤ) : (start cfg listenerFd).Core P where
  sound := Store.sound_create cfg
  mutex := iff_of_false (fun h ↦ nomatch h) id
  finishing := by
    rintro i ⟨w, removeMe, hw, -⟩
    cases hw
  timely := trivial

namespace Core

/-- A task that waits to finish keeps the master from holding the server mutex. -/
theorem not_finishing (h : s.Core P) (hm : s.master.Holds) (i : ℕ) : ¬ s.store.Finishing i := by
  intro hi
  have hmutex := h.mutex.mpr hm
  rw [h.finishing i hi] at hmutex
  cases hmutex

/-- A step of the master with the server mutex. -/
theorem steps_holding (h : s.Core P) (hm : s.master.Holds) (hchange : s.store.Change P s'.store)
    (hfin : ∀ i, s'.store.Finishing i → s.store.Finishing i)
    (hmutex : s'.serverMutex = s.serverMutex) (hm' : s'.master.Holds)
    (htimely : s'.store.exited = false → s'.master.Timely P s'.store) : Steps P s s' where
  change := hchange
  core := fun hrun ↦
    ⟨hchange.sound hrun, iff_of_true (hmutex.trans (h.mutex.mpr hm)) hm',
      fun i hi ↦ absurd (hfin i hi) (h.not_finishing hm i), htimely hrun⟩
  locked := fun _ ↦ by
    rw [hmutex, h.mutex.mpr hm]
    exact Option.some_ne_none _

/-- A step of the master that unlocks the server mutex. -/
theorem steps_unlock (h : s.Core P) (hm : s.master.Holds) (hrun : s'.store.exited = false)
    (hchange : s.store.Change P s'.store)
    (hfin : ∀ i, s'.store.Finishing i → s.store.Finishing i) (hmutex : s'.serverMutex = none)
    (hm' : ¬ s'.master.Holds) (htimely : s'.master.Timely P s'.store) : Steps P s s' where
  change := hchange
  core := fun hrun ↦
    ⟨hchange.sound hrun, iff_of_false (by rw [hmutex]; exact fun heq ↦ nomatch heq) hm',
      fun i hi ↦ absurd (hfin i hi) (h.not_finishing hm i), htimely⟩
  locked := fun hexit ↦ absurd (hrun.symm.trans hexit) Bool.false_ne_true

/-- A step of the master that locks the server mutex. -/
theorem steps_lock (h : s.Core P) (hrun : s.store.exited = false) (hfree : s.serverMutex = none)
    (hstore : s'.store = s.store) (hmutex : s'.serverMutex = some .master) (hm' : s'.master.Holds)
    (htimely : s'.master.Timely P s.store) : Steps P s s' where
  change := by
    rw [hstore]
    exact .refl h.sound
  core := fun _ ↦
    { sound := hstore ▸ h.sound
      mutex := iff_of_true hmutex hm'
      finishing := by
        intro i hi
        rw [hstore] at hi
        have hown := h.finishing i hi
        rw [hfree] at hown
        cases hown
      timely := hstore ▸ htimely }
  locked := fun hexit ↦ absurd (hrun.symm.trans (hstore ▸ hexit)) Bool.false_ne_true

/-- A step that leaves the connections and the server mutex as they are. -/
theorem steps_same (h : s.Core P) (hrun : s.store.exited = false) (hstore : s'.store = s.store)
    (hmutex : s'.serverMutex = s.serverMutex) (hm : s'.master.Holds ↔ s.master.Holds)
    (htimely : s'.master.Timely P s.store) : Steps P s s' where
  change := by
    rw [hstore]
    exact .refl h.sound
  core := fun _ ↦
    { sound := hstore ▸ h.sound
      mutex := by
        rw [hmutex, hm]
        exact h.mutex
      finishing := by
        rw [hstore, hmutex]
        exact h.finishing
      timely := hstore ▸ htimely }
  locked := fun hexit ↦ absurd (hrun.symm.trans (hstore ▸ hexit)) Bool.false_ne_true

/-! ## The steps of the tasks -/

variable {i : ℕ} {w : Worker cfg} {a : ServiceAction} {ok : Bool}

/-- A task that holds at most its connection mutex. -/
theorem steps_service {store : Store cfg} (h : s.Core P) (hrun : s.store.exited = false)
    (hw : s.store.worker i = some w) (hs : s.store.serviceConnection i w a = some store) :
    Steps P s { s with store := store } := by
  have hserv := h.sound.services hw hs
  refine ⟨hserv.toChange, fun hrun' ↦ ⟨hserv.sound hrun', h.mutex, ?_, ?_⟩, fun hexit ↦ ?_⟩
  · exact fun j hj ↦ h.finishing j (hserv.finishing j hj)
  · exact h.timely.of_sameUse hserv.sameUse
  · rw [hserv.exited, hrun] at hexit
    cases hexit

/-- A task that locks the server mutex. -/
theorem steps_lockServer {removeMe : Bool} (h : s.Core P) (hw : s.store.worker i = some w)
    (hfree : s.serverMutex = none) :
    Steps P s
      { s with
        store := s.store.setWorker i (some { w with place := .lockConn removeMe })
        serverMutex := some (.worker i) } := by
  have htask := h.sound.tasks i w hw
  have htask' : ∀ w' ∈ some { w with place := .lockConn removeMe }, s.store.Task P i w' := by
    rintro w' ⟨⟩
    exact ⟨htask.threadPool, htask.fresh, htask.source, htask.changeCount_le, htask.current,
      fun _ hp ↦ (nomatch hp), False.elim⟩
  have hchange : s.store.Change P
      (s.store.setWorker i (some { w with place := .lockConn removeMe })) :=
    .of_sound (h.sound.setWorker htask') rfl rfl
  have hm : ¬ s.master.Holds := by
    rw [← h.mutex, hfree]
    exact fun heq ↦ nomatch heq
  refine ⟨hchange, fun hrun' ↦ ⟨hchange.sound hrun', ?_, ?_, ?_⟩, fun _ ↦ Option.some_ne_none _⟩
  · exact iff_of_false (fun heq ↦ nomatch heq) hm
  · -- no other task was waiting to finish
    rintro j ⟨w', removeMe', hw', hp'⟩
    by_cases hji : j = i
    · rw [hji]
    · have hj : s.store.worker j = some w' := by simpa [Store.setWorker, hji] using hw'
      have hown := h.finishing j ⟨w', removeMe', hj, hp'⟩
      rw [hfree] at hown
      cases hown
  · exact h.timely.of_sameUse fun _ ↦ .refl _

/-- A task that finishes, and unlocks the server mutex unless the process ends. -/
theorem steps_finishService {removeMe : Bool} (h : s.Core P) (hw : s.store.worker i = some w)
    (hp : w.place = .lockConn removeMe) (hfree : s.store.connMutex w.conn = none) :
    Steps P s
      { s with
        store := s.store.finishService i w removeMe ok
        serverMutex :=
          if (s.store.finishService i w removeMe ok).exited then s.serverMutex else none } := by
  have hown := h.finishing i ⟨w, removeMe, hw, hp⟩
  have hm : ¬ s.master.Holds := by
    rw [← h.mutex, hown]
    exact fun heq ↦ nomatch heq
  obtain ⟨hchange, hages⟩ := h.sound.change_finishService hw hfree removeMe ok
  split_ifs with hexit
  · refine ⟨hchange, fun hrun' ↦ ?_, fun _ ↦ ?_⟩
    · exact absurd (hrun'.symm.trans hexit) Bool.false_ne_true
    · rw [hown]
      exact Option.some_ne_none _
  · refine ⟨hchange, fun hrun' ↦ ⟨hchange.sound hrun', ?_, ?_, ?_⟩, fun hexit' ↦ ?_⟩
    · exact iff_of_false (fun heq ↦ nomatch heq) hm
    · intro j hj
      obtain ⟨hji, hj'⟩ := Store.finishing_finishService hrun' hj
      have hown' := h.finishing j hj'
      rw [hown] at hown'
      cases hown'
      exact absurd rfl hji
    · exact h.timely.of_ages hm hages
    · exact absurd hexit' hexit

theorem steps_work (h : s.Core P) (hrun : s.store.exited = false)
    (hw : s.store.worker i = some w) (hs : s.work i w a ok = some s') : Steps P s s' := by
  cases taskProceeds hs with
  | lockServer hp hfree ha => exact h.steps_lockServer hw hfree
  | lockConn hp hfree ha => exact h.steps_finishService hw hp hfree
  | service hp hstore => exact h.steps_service hrun hw hstore

end Core

end POServer

end Tidbits.Server
