import BoundedCollections.BTreeMap
import BoundedCollections.BoundedBTreeMap.Basic
import BoundedCollections.BoundedBTreeMap.Map
import BoundedCollections.BoundedBTreeMap.Order
import BoundedCollections.Codec.Input
import BoundedCollections.Codec.Compact
import BoundedCollections.Codec.Collection
import BoundedCollections.BoundedBTreeMap.Codec
import BoundedCollections.BoundedBTreeMap.Serde
import BoundedCollections.BoundedBTreeMap.Collect
import BoundedCollections.BoundedBTreeMap.Reachable
import BoundedCollections.BoundedBTreeMap.Refinement
