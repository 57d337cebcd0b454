import EntityStore.Collection.InSession
import EntityStore.Names

/-!
# Workspaces

A workspace holds everything that lives together: entities, the directory with their tables, and
the sessions and collections that work on them, each under a name. A session is opened when its
name is first used. The repository can be opened anew over the same directory; sessions that were
opened before keep the repository they were opened on.
-/

namespace EntityStore

structure OpenSession where
  name : String
  /-- Which of the repositories it works on. -/
  repository : Nat
  session : Session

structure OpenCollection where
  name : String
  /-- The name of the session it goes through. -/
  session : String
  collection : SessionCollection

structure Workspace where
  pool : Pool
  names : Names
  directory : Directory
  /-- The repository as it is when it is opened. -/
  unopened : Repository
  /-- The repositories that have been opened, the current one last. -/
  repositories : List Repository
  sessions : List OpenSession
  collections : List OpenCollection

namespace Workspace

/-- A workspace over a repository that is opened with it. -/
def ofRepository (pool : Pool) (names : Names) (directory : Directory) (r : Repository) : Workspace :=
  ⟨pool, names, directory, r, [r], [], []⟩

/-- A workspace without entities and without loaders. -/
def empty : Workspace := ofRepository .empty [] (.empty ".") (.empty .defaults)

/-- Open the repository anew. -/
def reopen (w : Workspace) : Workspace :=
  { w with repositories := w.repositories ++ [w.unopened] }

/-! ## Steps of the store -/

/-- The number of the current repository. -/
def current (w : Workspace) : Nat := w.repositories.length - 1

def store (w : Workspace) (repository : Nat) : Store :=
  ⟨w.pool, w.directory, w.repositories.getD repository w.unopened⟩

def putStore (w : Workspace) (repository : Nat) (s : Store) : Workspace :=
  { w with
    pool := s.pool
    directory := s.directory
    repositories := w.repositories.set repository s.repository }

/-- Run a step on the current repository. -/
def onStore (w : Workspace) (m : StoreM α) : Except StoreError α × Workspace :=
  let (outcome, s) := m.run.run (w.store w.current)
  (outcome, w.putStore w.current s)

/-! ## Steps of a session -/

def session? (w : Workspace) (name : String) : Option OpenSession :=
  w.sessions.find? fun o => o.name == name

/-- The session of a name; it is opened on the current repository if there is none. -/
def openSession (w : Workspace) (name : String) : OpenSession × Workspace :=
  match w.session? name with
  | some o => (o, w)
  | none =>
    let o : OpenSession := ⟨name, w.current, .fresh⟩
    (o, { w with sessions := w.sessions ++ [o] })

/-- Run a step on the session of a name. -/
def onSession (w : Workspace) (name : String) (m : SessionM α) :
    Except SessionFault α × Workspace :=
  let (o, w) := w.openSession name
  let (outcome, work) := m.run.run ⟨w.store o.repository, o.session⟩
  let w := w.putStore o.repository work.store
  (outcome,
    { w with
      sessions := w.sessions.map fun p =>
        if p.name = name then { p with session := work.session } else p })

/-! ## Collections -/

def collection? (w : Workspace) (name : String) : Option OpenCollection :=
  w.collections.find? fun c => c.name == name

/-- Put up a collection in the session of a name. -/
def putCollection (w : Workspace) (name session : String) (c : SessionCollection) : Workspace :=
  let w := (w.openSession session).2
  { w with
    collections := ⟨name, session, c⟩ :: w.collections.filter fun o => o.name != name }

end Workspace

end EntityStore
