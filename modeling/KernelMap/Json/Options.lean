import KernelMap.Json.Reader
import KernelMap.Json.Record
import KernelMap.Options

/-!
# KernelMap.Json.Options

The JSON form of options.  Every field may be left out.
-/

namespace KernelMap

def Distribution.toJson : Distribution → Json
  | .tile => .str "tile"
  | .wrap => .str "wrap"

def Distribution.ofJson? (j : Json) : Option Distribution := do
  match ← j.unitCase? with
  | "tile" => some .tile
  | "wrap" => some .wrap
  | _ => none

namespace Options

def toJson (o : Options) : Json :=
  .obj [("tile_sizes", .list .int o.tileSizes), ("default_tile_size", .int o.defaultTileSize),
    ("grid_sizes", .list .int o.gridSizes), ("block_sizes", .list .int o.blockSizes),
    ("max_shared_memory", .int o.maxSharedMemory), ("use_shared_memory", .bool o.useSharedMemory),
    ("use_private_memory", .bool o.usePrivateMemory), ("grid_mapping", o.gridMapping.toJson),
    ("thread_mapping", o.threadMapping.toJson), ("scale_tile_loops", .bool o.scaleTileLoops)]

def ofJson? (j : Json) : Option Options := do
  let r ← j.record? ["tile_sizes", "default_tile_size", "grid_sizes", "block_sizes",
    "max_shared_memory", "use_shared_memory", "use_private_memory", "grid_mapping",
    "thread_mapping", "scale_tile_loops"]
  return {
    tileSizes := ← r.withDefault "tile_sizes" default.tileSizes (Json.list? Json.word?)
    defaultTileSize := ← r.withDefault "default_tile_size" default.defaultTileSize Json.word?
    gridSizes := ← r.withDefault "grid_sizes" default.gridSizes (Json.list? Json.word?)
    blockSizes := ← r.withDefault "block_sizes" default.blockSizes (Json.list? Json.word?)
    maxSharedMemory := ← r.withDefault "max_shared_memory" default.maxSharedMemory Json.word?
    useSharedMemory := ← r.withDefault "use_shared_memory" default.useSharedMemory Json.bool?
    usePrivateMemory := ← r.withDefault "use_private_memory" default.usePrivateMemory Json.bool?
    gridMapping := ← r.withDefault "grid_mapping" default.gridMapping Distribution.ofJson?
    threadMapping := ← r.withDefault "thread_mapping" default.threadMapping Distribution.ofJson?
    scaleTileLoops := ← r.withDefault "scale_tile_loops" default.scaleTileLoops Json.bool? }

/-- The options with the given JSON text, if they are valid. -/
def ofText (text : String) : Outcome MapError Options := do
  let o ← .orRaise .json ((Json.read? text).bind ofJson?)
  o.validate
  return o

end Options

end KernelMap
