import SnugKV.Lib.Binary

/-!
# Value types — what a stored value logically represents

The type tag of `internal/engine/value_type.go`.  It is stored as one byte, in the order of the
constants; `Store.Type` shows the containers under their names and everything else as a string.
-/

namespace SnugKV
namespace Engine

open Lib

inductive ValueType where
  | string
  | int64
  | uint64
  | float64
  | bool
  | bytes
  | json
  | hash
  | set
  | list
  | zset
  | stream
  | bloom
  | cuckoo
  | cms
  | topK
  | tDigest
  | timeSeries
  | vectorSet
  deriving DecidableEq, Repr

namespace ValueType

def code : ValueType → UInt8
  | string => 0
  | int64 => 1
  | uint64 => 2
  | float64 => 3
  | bool => 4
  | bytes => 5
  | json => 6
  | hash => 7
  | set => 8
  | list => 9
  | zset => 10
  | stream => 11
  | bloom => 12
  | cuckoo => 13
  | cms => 14
  | topK => 15
  | tDigest => 16
  | timeSeries => 17
  | vectorSet => 18

/-- The name that `Store.Type` returns. -/
def typeName : ValueType → Bytes
  | hash => ascii "hash"
  | set => ascii "set"
  | list => ascii "list"
  | zset => ascii "zset"
  | stream => ascii "stream"
  | _ => ascii "string"

end ValueType
end Engine
end SnugKV
