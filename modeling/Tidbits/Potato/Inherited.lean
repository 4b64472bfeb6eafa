import Mathlib.Data.Int.Notation
import Mathlib.Data.List.Count
import Mathlib.Data.List.Induction
import Mathlib.Data.PNat.Notation
import Mathlib.Data.PNat.Basic
import Mathlib.Logic.Function.Basic

/-!
# Sockets that were handed off

A new process may have received listening sockets from an old one.  They are in
the table `po.handoffSockets` when the servers of the new process set up their
listeners: `_poTato_findListenerFd()` looks for the socket of an address, and
`_poTato_handoffCleanup()` closes what is left.

The search acts on the first entry that has the port of the address, so each
call uses up one entry of its port, from the first on.  A call obtains the
entry of its address just when the calls before it have used up the entries
before that one (`obtained_eq_iff`).
-/

namespace Tidbits.Potato

/-! ## Addresses -/

/-- `struct sockaddr`. -/
structure Sockaddr where
  bytes : Vector UInt8 16
deriving DecidableEq, Repr

namespace Sockaddr

/-- The field `sa_family`. -/
def saFamily (addr : Sockaddr) : ℕ := addr.bytes[0].toNat + 256 * addr.bytes[1].toNat

/-- `getPort`, for `AF_INET` and `AF_INET6`. -/
def getPort (addr : Sockaddr) : ℕ :=
  if addr.saFamily = 2 ∨ addr.saFamily = 10 then
    addr.bytes[2].toNat + 256 * addr.bytes[3].toNat
  else 0

end Sockaddr

/-! ## The table -/

/-- `struct POTato_handoffSockets`. -/
structure HandoffSocket where
  addr : Sockaddr
  fd : ℤ
deriving DecidableEq, Repr

/-- An entry is marked as used. -/
def HandoffSocket.used (e : HandoffSocket) : HandoffSocket := { e with fd := -1 }

@[simp] theorem HandoffSocket.fd_used (e : HandoffSocket) : e.used.fd = -1 := rfl

/-- What `_poTato_findListenerFd()` returns, with the table that it leaves and what it closes. -/
structure Found where
  fd : ℤ
  table : List HandoffSocket
  closed : Option ℤ
deriving DecidableEq, Repr

/-- The loop of `_poTato_findListenerFd()`. -/
def findListenerFd (addr : Sockaddr) : List HandoffSocket → Found
  | [] => ⟨-1, [], none⟩
  | e :: es =>
      let r := findListenerFd addr es
      if e.fd = -1 then { r with table := e :: r.table }
      else if e.addr.getPort = addr.getPort then
        if e.addr = addr then ⟨e.fd, e.used :: es, none⟩
        -- the same port, but not the same address
        else ⟨-1, e.used :: es, some e.fd⟩
      else { r with table := e :: r.table }

/-- The new process, as far as the table and the numbers of listeners are concerned. -/
structure NewProcess where
  /-- `po.handoffSockets`, if it is not `NULL`, with its `po.numListeners` entries. -/
  handoffSockets : Option (List HandoffSocket)
  /-- The field `numListeners` of each server. -/
  numListeners : ℕ → ℕ
  /-- What the code of the table has closed. -/
  closed : List ℤ

/-- A call of `poServer_listenerSetup()` that knows its address. -/
structure SetupCall where
  server : ℕ
  addr : Sockaddr
  /-- A new socket can be set up. -/
  ok : Bool
deriving DecidableEq, Repr

namespace NewProcess

/-- The process with its table, before the first call. -/
def start (table : List HandoffSocket) : NewProcess := ⟨some table, fun _ ↦ 0, []⟩

/-- `_poTato_handoffCleanup()`. -/
def handoffCleanup (p : NewProcess) : NewProcess :=
  match p.handoffSockets with
  | none => p
  | some table =>
      { p with
        handoffSockets := none
        closed := p.closed ++ (table.map HandoffSocket.fd).filter (0 ≤ ·) }

/-- The search of a call. -/
def find (p : NewProcess) (addr : Sockaddr) : Found :=
  findListenerFd addr (p.handoffSockets.getD [])

/-- `poServer_listenerSetup()`. -/
def listenerSetup (num : ℕ+) (p : NewProcess) (c : SetupCall) : NewProcess :=
  let r := p.find c.addr
  let p :=
    { p with
      handoffSockets := p.handoffSockets.map fun _ ↦ r.table
      closed := p.closed ++ r.closed.toList }
  if r.fd = -1 && !c.ok then p
  else
    let n := p.numListeners c.server + 1
    let p := { p with numListeners := Function.update p.numListeners c.server n }
    if n = num then p.handoffCleanup else p

/-- The calls one after the other. -/
def run (num : ℕ+) (p : NewProcess) (calls : List SetupCall) : NewProcess :=
  calls.foldl (listenerSetup num) p

end NewProcess

/-! ## Used entries -/

/-- The table after `n port` calls for each port. -/
def spend (n : ℕ → ℕ) : List HandoffSocket → List HandoffSocket
  | [] => []
  | e :: es =>
      let port := e.addr.getPort
      if n port = 0 then e :: spend n es
      else e.used :: spend (Function.update n port (n port - 1)) es

/-- One more call for the port. -/
def oneMore (n : ℕ → ℕ) (port : ℕ) : ℕ → ℕ := Function.update n port (n port + 1)

section Spend

variable {n : ℕ → ℕ} {addr : Sockaddr} {table : List HandoffSocket}

theorem oneMore_self (port : ℕ) : oneMore n port port = n port + 1 := Function.update_self _ _ _

theorem oneMore_of_ne {port port' : ℕ} (h : port' ≠ port) : oneMore n port port' = n port' :=
  Function.update_of_ne h _ _

/-- A call that is undone by an entry of its port. -/
theorem update_oneMore_self (port : ℕ) :
    Function.update (oneMore n port) port (oneMore n port port - 1) = n := by
  rw [oneMore_self, oneMore, Function.update_idem, Nat.add_sub_cancel, Function.update_eq_self]

/-- An entry of the port that was used is met before the call. -/
theorem oneMore_update_self {port : ℕ} (h : n port ≠ 0) :
    oneMore (Function.update n port (n port - 1)) port = n := by
  rw [oneMore, Function.update_self, Function.update_idem, Nat.sub_one_add_one h,
    Function.update_eq_self]

theorem oneMore_update_of_ne {port port' k : ℕ} (h : port' ≠ port) :
    oneMore (Function.update n port' k) port = Function.update (oneMore n port) port' k := by
  rw [oneMore, Function.update_of_ne h.symm, oneMore, Function.update_comm h]

theorem spend_zero (table : List HandoffSocket) : spend (fun _ ↦ 0) table = table := by
  induction table with
  | nil => rfl
  | cons e es ih => rw [spend, if_pos rfl, ih]

/-- **A call uses up one entry of its port.** -/
theorem table_find_spend (hlive : ∀ e ∈ table, e.fd ≠ -1) (n : ℕ → ℕ) :
    (findListenerFd addr (spend n table)).table = spend (oneMore n addr.getPort) table := by
  induction table generalizing n with
  | nil => rfl
  | cons e es ih =>
      have hes : ∀ e ∈ es, e.fd ≠ -1 := fun e he ↦ hlive e (List.mem_cons_of_mem _ he)
      have he : e.fd ≠ -1 := hlive e List.mem_cons_self
      by_cases hport : e.addr.getPort = addr.getPort
      · by_cases hzero : n e.addr.getPort = 0
        · rw [spend, if_pos hzero, findListenerFd, if_neg he, if_pos hport, spend, hport,
            oneMore_self, if_neg (Nat.succ_ne_zero _)]
          rw [← oneMore_self, update_oneMore_self]
          split_ifs <;> rfl
        · rw [spend, if_neg hzero, findListenerFd, if_pos e.fd_used, ih hes, spend, hport,
            oneMore_self, if_neg (Nat.succ_ne_zero _), oneMore_update_self (hport ▸ hzero),
            ← oneMore_self, update_oneMore_self]
      · have hsame : oneMore n addr.getPort e.addr.getPort = n e.addr.getPort :=
          oneMore_of_ne hport
        by_cases hzero : n e.addr.getPort = 0
        · rw [spend, if_pos hzero, findListenerFd, if_neg he, if_neg hport, ih hes, spend,
            if_pos (hsame.trans hzero)]
        · rw [spend, if_neg hzero, findListenerFd, if_pos e.fd_used, ih hes, spend, hsame,
            if_neg hzero, oneMore_update_of_ne hport]

/-- A call for an address that is not in the table obtains nothing. -/
theorem find_spend_of_not_mem (haddr : ∀ e ∈ table, e.addr ≠ addr) (n : ℕ → ℕ) :
    (findListenerFd addr (spend n table)).fd = -1 := by
  induction table generalizing n with
  | nil => rfl
  | cons e es ih =>
      have hes : ∀ e ∈ es, e.addr ≠ addr := fun e he ↦ haddr e (List.mem_cons_of_mem _ he)
      have he : e.addr ≠ addr := haddr e List.mem_cons_self
      rw [spend]
      split_ifs with hzero
      · rw [findListenerFd, if_neg he]
        split_ifs
        · exact ih hes n
        · rfl
        · exact ih hes n
      · rw [findListenerFd, if_pos e.fd_used]
        exact ih hes _

/-- Entries with the port of the address. -/
abbrev samePort (addr : Sockaddr) (e : HandoffSocket) : Bool :=
  decide (e.addr.getPort = addr.getPort)

/-- **A call obtains the entry of its address** if and only if as many calls were made for its port
as there are entries before it. -/
theorem find_spend_eq_iff (hlive : ∀ e ∈ table, e.fd ≠ -1)
    (hdistinct : table.Pairwise fun e e' ↦ e.addr ≠ e'.addr) {j : ℕ} {e : HandoffSocket}
    (hj : table[j]? = some e) (n : ℕ → ℕ) :
    (findListenerFd e.addr (spend n table)).fd = e.fd ↔
      n e.addr.getPort = (table.take j).countP (samePort e.addr) := by
  induction table generalizing n j with
  | nil => exact nomatch hj
  | cons e₀ es ih =>
      have hes : ∀ e ∈ es, e.fd ≠ -1 := fun e he ↦ hlive e (List.mem_cons_of_mem _ he)
      have he₀ : e₀.fd ≠ -1 := hlive e₀ List.mem_cons_self
      obtain ⟨hothers, hrest⟩ := List.pairwise_cons.mp hdistinct
      cases j with
      | zero =>
          cases Option.some.inj hj
          rw [List.take_zero, List.countP_nil, spend]
          split_ifs with hzero
          · rw [findListenerFd, if_neg he₀, if_pos rfl, if_pos rfl]
            exact iff_of_true rfl hzero
          · rw [findListenerFd, if_pos e.fd_used]
            dsimp only
            rw [find_spend_of_not_mem fun e he ↦ (hothers e he).symm]
            exact iff_of_false he₀.symm hzero
      | succ j =>
          have hj' : es[j]? = some e := hj
          have he : e ∈ es := List.mem_of_getElem? hj'
          have haddr : e₀.addr ≠ e.addr := hothers e he
          rw [List.take_succ_cons, spend]
          by_cases hport : e₀.addr.getPort = e.addr.getPort
          · rw [List.countP_cons_of_pos (show samePort e.addr e₀ = true from decide_eq_true hport)]
            split_ifs with hzero
            · rw [findListenerFd, if_neg he₀, if_pos hport, if_neg haddr]
              refine iff_of_false (hes e he).symm ?_
              rw [← hport, hzero]
              exact (Nat.succ_ne_zero _).symm
            · rw [findListenerFd, if_pos e₀.fd_used]
              refine (ih hes hrest hj' _).trans ?_
              rw [hport, Function.update_self]
              have hne : n e.addr.getPort ≠ 0 := hport ▸ hzero
              omega
          · rw [List.countP_cons_of_neg (show ¬ samePort e.addr e₀ = true by simpa using hport)]
            split_ifs with hzero
            · rw [findListenerFd, if_neg he₀, if_neg hport]
              exact ih hes hrest hj' n
            · rw [findListenerFd, if_pos e₀.fd_used]
              refine (ih hes hrest hj' _).trans ?_
              rw [Function.update_of_ne (Ne.symm hport)]

end Spend

/-! ## Calls -/

namespace NewProcess

variable {num : ℕ+} {table : List HandoffSocket}

/-- The calls that were made for a port. -/
def calls (pre : List SetupCall) (port : ℕ) : ℕ :=
  pre.countP fun c ↦ decide (c.addr.getPort = port)

/-- No server has all its listeners. -/
def Incomplete (num : ℕ+) (p : NewProcess) : Prop := ∀ server, p.numListeners server < num

/-- Either no server has all its listeners, and each call has used up an entry of its port, or the
table is gone. -/
def Spent (num : ℕ+) (table : List HandoffSocket) (n : ℕ → ℕ) (p : NewProcess) : Prop :=
  (p.Incomplete num ∧ p.handoffSockets = some (spend n table)) ∨
    (¬ p.Incomplete num ∧ p.handoffSockets = none)

theorem calls_concat (pre : List SetupCall) (c : SetupCall) :
    calls (pre ++ [c]) = oneMore (calls pre) c.addr.getPort := by
  funext port
  by_cases hport : port = c.addr.getPort
  · subst hport
    rw [oneMore_self, calls, calls, List.countP_append, List.countP_singleton,
      if_pos (decide_eq_true rfl)]
  · rw [oneMore_of_ne hport, calls, calls, List.countP_append, List.countP_singleton,
      if_neg (by simpa using Ne.symm hport), Nat.add_zero]

theorem spent_start (num : ℕ+) (table : List HandoffSocket) :
    (start table).Spent num table fun _ ↦ 0 :=
  .inl ⟨fun _ ↦ num.pos, by rw [spend_zero]; rfl⟩

/-- A call leaves the numbers of listeners, or adds one to that of its server. -/
theorem numListeners_listenerSetup (num : ℕ+) (p : NewProcess) (c : SetupCall) :
    (p.listenerSetup num c).numListeners = p.numListeners ∨
      (p.listenerSetup num c).numListeners =
        Function.update p.numListeners c.server (p.numListeners c.server + 1) := by
  have hcleanup : ∀ p : NewProcess, p.handoffCleanup.numListeners = p.numListeners := by
    intro p
    unfold handoffCleanup
    split <;> rfl
  unfold NewProcess.listenerSetup
  dsimp only
  split_ifs
  · exact .inl rfl
  · exact .inr (hcleanup _)
  · exact .inr rfl

/-- A server that has all its listeners keeps them. -/
theorem not_incomplete_listenerSetup {p : NewProcess} (h : ¬ p.Incomplete num) (c : SetupCall) :
    ¬ (p.listenerSetup num c).Incomplete num := by
  intro hinc
  refine h fun server ↦ Nat.lt_of_le_of_lt ?_ (hinc server)
  rcases numListeners_listenerSetup num p c with heq | heq
  · rw [heq]
  · rw [heq]
    by_cases hserver : server = c.server
    · rw [hserver, Function.update_self]
      exact Nat.le_succ _
    · rw [Function.update_of_ne hserver]

theorem Spent.listenerSetup {n : ℕ → ℕ} {p : NewProcess} (hlive : ∀ e ∈ table, e.fd ≠ -1)
    (h : p.Spent num table n) (c : SetupCall) :
    (p.listenerSetup num c).Spent num table (oneMore n c.addr.getPort) := by
  rcases h with ⟨hinc, htable⟩ | ⟨hcomplete, htable⟩
  · have hfind : (p.find c.addr).table = spend (oneMore n c.addr.getPort) table := by
      rw [find, htable]
      exact table_find_spend hlive n
    unfold NewProcess.listenerSetup
    dsimp only
    rw [htable, Option.map_some, hfind]
    split_ifs with hfails hnum
    · exact .inl ⟨hinc, rfl⟩
    · refine .inr ⟨fun hinc' ↦ ?_, rfl⟩
      have hlt := hinc' c.server
      rw [handoffCleanup] at hlt
      dsimp only at hlt
      rw [Function.update_self, hnum] at hlt
      exact Nat.lt_irrefl _ hlt
    · refine .inl ⟨fun server ↦ ?_, rfl⟩
      by_cases hserver : server = c.server
      · dsimp only
        rw [hserver, Function.update_self]
        exact Nat.lt_of_le_of_ne (hinc c.server) hnum
      · dsimp only
        rw [Function.update_of_ne hserver]
        exact hinc server
  · refine .inr ⟨not_incomplete_listenerSetup hcomplete c, ?_⟩
    unfold NewProcess.listenerSetup handoffCleanup
    simp only [htable, Option.map_none]
    split_ifs <;> rfl

theorem spent_run (num : ℕ+) (hlive : ∀ e ∈ table, e.fd ≠ -1) (pre : List SetupCall) :
    (run num (start table) pre).Spent num table (calls pre) := by
  induction pre using List.reverseRecOn with
  | nil => exact spent_start num table
  | append_singleton pre c ih =>
      rw [run, List.foldl_append, calls_concat]
      exact Spent.listenerSetup hlive ih c

/-- The descriptor that a call obtains from the table. -/
def obtained (p : NewProcess) (c : SetupCall) : ℤ := (p.find c.addr).fd

/-- **A call obtains the socket of its address** if and only if as many calls were made for its
port as there are entries with the port before it, and no server had all its listeners. -/
theorem obtained_eq_iff (hlive : ∀ e ∈ table, e.fd ≠ -1)
    (hdistinct : table.Pairwise fun e e' ↦ e.addr ≠ e'.addr) (pre : List SetupCall)
    {c : SetupCall} {j : ℕ} {e : HandoffSocket} (hj : table[j]? = some e)
    (haddr : c.addr = e.addr) :
    (run num (start table) pre).obtained c = e.fd ↔
      calls pre e.addr.getPort = (table.take j).countP (samePort e.addr) ∧
        (run num (start table) pre).Incomplete num := by
  rw [obtained, haddr]
  rcases spent_run num hlive pre with ⟨hinc, htable⟩ | ⟨hcomplete, htable⟩
  · rw [find, htable, Option.getD_some, find_spend_eq_iff hlive hdistinct hj]
    exact (and_iff_left hinc).symm
  · rw [find, htable]
    exact iff_of_false (hlive e (List.mem_of_getElem? hj)).symm fun h ↦ hcomplete h.2

/-- `127.0.0.1:80`, `127.0.0.2:80` and so on. -/
abbrev loopback (host : UInt8) : Sockaddr :=
  ⟨#v[2, 0, 0, 80, 127, 0, 0, host, 0, 0, 0, 0, 0, 0, 0, 0]⟩

/-- Two sockets with one port. -/
abbrev onePort : List HandoffSocket := [⟨loopback 1, 5⟩, ⟨loopback 2, 6⟩]

/-- In the order of the table both calls obtain their sockets. -/
theorem obtained_of_order :
    (run 2 (start onePort) [⟨0, loopback 1, true⟩]).obtained ⟨1, loopback 2, true⟩ = 6 := by
  refine (obtained_eq_iff (j := 1) (e := ⟨loopback 2, 6⟩) (by decide : ∀ e ∈ onePort, e.fd ≠ -1)
    (by decide) _ rfl rfl).mpr ⟨by decide, fun server ↦ ?_⟩
  show Function.update (fun _ ↦ 0) 0 1 server < 2
  by_cases hserver : server = 0
  · rw [hserver, Function.update_self]
    decide
  · rw [Function.update_of_ne hserver]
    decide

/-- In the other order the first call closes the socket of the second one and obtains none. -/
theorem not_obtained_of_order : ¬ ∀ (num : ℕ+) (table : List HandoffSocket) (pre : List SetupCall)
    (c : SetupCall) (e : HandoffSocket), (∀ e ∈ table, e.fd ≠ -1) →
      (table.Pairwise fun e e' ↦ e.addr ≠ e'.addr) →
        ((pre ++ [c]).Pairwise fun c c' ↦ c.addr ≠ c'.addr) → e ∈ table → c.addr = e.addr →
          (run num (start table) pre).obtained c = e.fd := by
  intro h
  have heq := h 2 onePort [] ⟨0, loopback 2, true⟩ ⟨loopback 2, 6⟩ (by decide) (by decide)
    (by decide) (by decide) rfl
  exact absurd heq (by decide)

end NewProcess

end Tidbits.Potato
