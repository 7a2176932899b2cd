import KernelMap.Compile
import KernelMap.Json.Printer
import KernelMap.Json.Program
import KernelMap.Json.Schedule
import KernelMap.Json.Tile

/-!
# KernelMap.Json.Kernel

The JSON form of groups, bodies, trees and kernels.
-/

namespace KernelMap

def Group.toJson (g : Group) : Json :=
  .obj [("array", .str g.array), ("nr", .nat g.nr), ("refs", .list .nat g.refs),
    ("write", .bool g.write), ("exact_write", .bool g.definiteWrite),
    ("force_private", .bool g.forcePrivate),
    ("shared_tile", .option Tile.toJson g.sharedTile),
    ("private_tile", .option Tile.toJson g.privateTile),
    ("last_shared", .option .nat g.lastShared)]

/-! ## Bodies -/

def Moment.toJson : Moment → Json
  | .slot n => .tagged "Slot" (.int n)
  | .dim j => .tagged "Dim" (.nat j)
  | .const v => .tagged "Const" (.int v)

def Direction.toJson : Direction → Json
  | .copyIn => .str "In"
  | .copyOut => .str "Out"

def Direction.ofJson? (j : Json) : Option Direction := do
  match ← j.unitCase? with
  | "In" => some .copyIn
  | "Out" => some .copyOut
  | _ => none

def Work.toJson : Work → Json
  | .statement index name => .tagged "Statement" (.obj [("index", .nat index), ("name", .str name)])
  | .copy group var direction memory refs =>
    .tagged "Copy" (.obj [("group", .nat group), ("var", .str var), ("direction", direction.toJson),
      ("placement", memory.toJson), ("refs", .list .nat refs)])
  | .sync => .str "Sync"

def Item.toJson (i : Item) : Json :=
  .obj [("kind", i.work.toJson), ("time", .list Moment.toJson i.time)]

/-! ## Trees -/

def NodeInfo.toJson (i : NodeInfo) : Json :=
  .obj [("level", .nat i.level), ("kind", i.kind.toJson), ("unroll", .bool i.unroll)]

namespace Tree

mutual
def toJson : Tree → Json
  | block children => .tagged "Block" (.arr (listToJson children))
  | loop info body => .tagged "For" (.obj [("info", info.toJson), ("body", toJson body)])
  | mapped info id body =>
      .tagged "Mapped" (.obj [("info", info.toJson), ("id", .str id), ("body", toJson body)])
  | user index name => .tagged "User" (.obj [("index", .nat index), ("name", .str name)])
  | copy var direction memory refs =>
    .tagged "Copy"
      (.obj [("var", .str var), ("direction", direction.toJson), ("placement", memory.toJson),
        ("refs", .list .nat refs)])
  | sync => .str "Sync"
  | launch kernel => .tagged "Launch" (.obj [("kernel", .nat kernel)])

/-- The trees of a list. -/
def listToJson : List Tree → List Json
  | [] => []
  | t :: ts => toJson t :: listToJson ts
end

end Tree

/-! ## Kernels -/

def LocalizedArray.toJson (a : LocalizedArray) : Json :=
  .obj [("name", .str a.name), ("element_type", .str a.elementType),
    ("element_size", .nat a.elementSize), ("extent", .list Extent.toJson a.extent),
    ("read_only", .bool a.readOnly)]

def LocalVariable.toJson (v : LocalVariable) : Json :=
  .obj [("name", .str v.name), ("array", .str v.array), ("placement", v.memory.toJson),
    ("sizes", .list .int v.sizes), ("element_count", .int v.elementCount), ("bytes", .int v.bytes),
    ("tiling", v.tiling.toJson)]

def Kernel.toJson (k : Kernel) : Json :=
  .obj [("id", .nat k.id), ("param_names", .list .str k.paramNames),
    ("context", .list Constraint.toJson k.context), ("grid_size", .list .int k.gridSize),
    ("block_size", .list .int k.blockSize),
    ("block_ids", .list .str k.blockIds), ("thread_ids", .list .str k.threadIds),
    ("arrays", .list LocalizedArray.toJson k.arrays),
    ("variables", .list LocalVariable.toJson k.locals),
    ("groups", .list Group.toJson k.groups), ("schedule", k.schedule.toJson),
    ("items", .list Item.toJson k.items),
    ("unrolled", .list .bool k.unrolled), ("ast", k.tree.toJson)]

namespace Compiled

def toJson (c : Compiled) : Json :=
  .obj [("kernels", .list Kernel.toJson c.kernels), ("host", c.host.toJson)]

/-- The indented JSON text of a compiled program. -/
def toText (c : Compiled) : String := c.toJson.pretty

end Compiled

end KernelMap
