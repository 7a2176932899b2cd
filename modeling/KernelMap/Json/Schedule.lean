import KernelMap.Json.Affine
import KernelMap.Json.Options
import KernelMap.Schedule.Kernel

/-!
# KernelMap.Json.Schedule

The JSON form of kernel schedules.
-/

namespace KernelMap

def Level.toJson : Level → Json
  | .host => .str "Host"
  | .blockId => .str "BlockId"
  | .tileLoop => .str "TileLoop"
  | .threadId => .str "ThreadId"
  | .pointLoop => .str "PointLoop"
  | .inner => .str "Inner"

def Stage.toJson : Stage → Json
  | .untiled => .str "Untiled"
  | .tiled => .str "Tiled"
  | .parametrized => .str "Parametrized"
  | .scaled => .str "Scaled"
  | .bodyScheduled => .str "BodyScheduled"
  | .unrollInterchanged => .str "UnrollInterchanged"

def StmtSchedule.toJson (s : StmtSchedule) : Json :=
  .obj [("stmt", .nat s.stmt), ("n_program_param", .nat s.nProgramParam), ("space", s.space.toJson),
    ("constraints", .list Constraint.toJson s.constraints), ("dims", .list Affine.toJson s.dims)]

def KernelSchedule.toJson (k : KernelSchedule) : Json :=
  .obj [("param_names", .list .str k.paramNames), ("n_program_param", .nat k.nProgramParam),
    ("context", .list Constraint.toJson k.context), ("tile_first", .nat k.tileFirst),
    ("tile_len", .nat k.tileLen),
    ("n_grid", .nat k.nGrid), ("n_block", .nat k.nBlock), ("tile_sizes", .list .int k.tileSizes),
    ("grid_sizes", .list .int k.gridSizes), ("block_sizes", .list .int k.blockSizes),
    ("grid_mapping", k.gridMapping.toJson), ("thread_mapping", k.threadMapping.toJson),
    ("levels", .list Level.toJson k.levels), ("coincident", .list .bool k.coincident),
    ("statements", .list StmtSchedule.toJson k.statements), ("stage", k.stage.toJson)]

end KernelMap
