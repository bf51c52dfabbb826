import Rehome.Session.Memory
import Rehome.Session.Supplier
import Rehome.Workshop

/-!
# Sessions

A session is one host with several clients at work on it, and a memory of search paths. Each client
has a workshop of its own; clients may share a cache.
-/

namespace Rehome

namespace Session

/-- What a cache goes by: a name that clients share, or the one client it belongs to. -/
inductive CacheKey where
  | shared (name : Text)
  | own (client : Nat)
  deriving DecidableEq, Repr

structure Client where
  settings : Settings := {}
  supplier? : Option Supplier := none
  cacheKey : CacheKey
  /-- How often the supplier was asked. -/
  tally : Tally := {}
  deriving Repr

def Client.workshop (c : Client) : Workshop Tally :=
  ⟨c.settings, c.supplier?.map Supplier.installer, Host.launch⟩

end Session

structure Session where
  host : Host
  clients : List Session.Client
  caches : OrderedMap Session.CacheKey Tool.Cache
  memory : Session.Memory
  /-- The paths that cannot be written in memory. -/
  failing : List Text
  deriving Repr

namespace Session

def client (s : Session) (index : Nat) : Client :=
  s.clients.getD index { cacheKey := .own index }

/-- The cache of a client, which is empty before its first use. -/
def cacheOf (s : Session) (c : Client) : Tool.Cache :=
  (s.caches.get? c.cacheKey).getD {}

/-- The world that a client acts in. -/
def world (s : Session) (c : Client) : World Tally :=
  ⟨s.host, s.cacheOf c, c.tally⟩

/-- The session after the client at an index has left its world in another state. -/
def withWorld (s : Session) (index : Nat) (w : World Tally) : Session :=
  let c := s.client index
  { s with
    host := w.host
    caches := s.caches.insert c.cacheKey w.cache
    clients := s.clients.set index { c with tally := w.supply } }

end Session

end Rehome
