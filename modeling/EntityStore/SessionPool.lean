import EntityStore.Session

/-!
# Pools of sessions

A pool gives every thread a session of its own over one repository. The session is opened when
the thread first asks and stays registered, whether or not the thread still runs, until the thread
releases it. Sessions are numbered as they are opened.
-/

namespace EntityStore

/-- A session that is registered for a thread. -/
structure PooledSession where
  thread : Nat
  number : Nat
  session : Session

/-- Sessions by thread over one repository. -/
structure SessionPool where
  store : Store
  registered : List PooledSession
  /-- How many sessions have been opened. -/
  opened : Nat

namespace SessionPool

def ofStore (store : Store) : SessionPool := ⟨store, [], 0⟩

/-- The session of a thread; it is opened if there is none. -/
def acquire (p : SessionPool) (thread : Nat) : PooledSession × SessionPool :=
  match p.registered.find? fun s => s.thread == thread with
  | some s => (s, p)
  | none =>
    let s : PooledSession := ⟨thread, p.opened, .fresh⟩
    (s, { p with registered := p.registered ++ [s], opened := p.opened + 1 })

/-- Close the session of a thread; returns whether there was one. -/
def release (p : SessionPool) (thread : Nat) : Bool × SessionPool :=
  (p.registered.any fun s => s.thread == thread,
    { p with registered := p.registered.filter fun s => s.thread != thread })

/-- The number of registered sessions. -/
def active (p : SessionPool) : Nat := p.registered.length

/-- Run a step on the session of a thread, under its lock; returns the session's number. -/
def onSession (p : SessionPool) (thread : Nat) (m : SessionM α) :
    Except SessionFault (Nat × α) × SessionPool :=
  let (s, p) := p.acquire thread
  let (outcome, w) := (Session.locked m).run.run ⟨p.store, s.session⟩
  (outcome.map fun a => (s.number, a),
    { p with
      store := w.store
      registered := p.registered.map fun r =>
        if r.thread = thread then { r with session := w.session } else r })

end SessionPool

end EntityStore
