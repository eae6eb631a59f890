import Relata.Store.Fault
/-!
# Storages

A storage keeps byte sequences under paths. A path is a text with its parts separated by slashes.
-/

namespace Relata

/-- The operations of a storage. An operation that may change it gives its next state, also when it
fails. -/
class Storage (σ : Type) where
  /-- Put bytes under a path, in place of those that were there. -/
  write : σ → String → Bytes → Except StoreFault Unit × σ
  /-- The bytes under a path. -/
  read : σ → String → Except StoreFault Bytes
  /-- Take a path away. A path that is not there is no fault. -/
  delete : σ → String → Except StoreFault Unit × σ
  /-- The paths that start with a text, in ascending order. -/
  list : σ → String → List String
  /-- Whether there are bytes under a path. -/
  contains : σ → String → Bool

end Relata
