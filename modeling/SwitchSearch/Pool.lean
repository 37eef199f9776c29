/-!
This module contains queues that are shared among several owners. Owners hold handles; all handles of
one group lead to the same queue, and each operation sees that queue alone.
-/

namespace SwitchSearch

structure Pool (α : Type) where
  groups : Nat
  queues : Vector α groups
  handles : Array (Fin groups)

namespace Pool

variable {α β : Type}

def single (queue : α) : Pool α where
  groups := 1
  queues := #v[queue]
  handles := #[0]

def queue? (pool : Pool α) (handle : Nat) : Option α :=
  pool.handles[handle]?.map (pool.queues[·])

def view (pool : Pool α) : List α :=
  pool.handles.toList.map (pool.queues[·])

def fresh (pool : Pool α) (queue : α) : Pool α where
  groups := pool.groups + 1
  queues := pool.queues.push queue
  handles := (pool.handles.map Fin.castSucc).push (Fin.last pool.groups)

def share (pool : Pool α) (handle : Nat) : Pool α :=
  match pool.handles[handle]? with
  | none => pool
  | some group => { pool with handles := pool.handles.push group }

def run (pool : Pool α) (handle : Nat) (operation : α → β × α) : Option β × Pool α :=
  match pool.handles[handle]? with
  | none => (none, pool)
  | some group =>
    let (result, queue) := operation pool.queues[group]
    (some result, { pool with queues := pool.queues.set group queue })

end Pool

end SwitchSearch
