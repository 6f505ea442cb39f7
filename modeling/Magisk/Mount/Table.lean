import Magisk.Mount.Info

namespace Magisk.Mount

/-- The mounts in the order of the kernel's list; each target is a path. -/
structure MountTable where
  mounts : List (MountInfo Str)
  isPath : ∀ m ∈ mounts, IsPath m.target

namespace MountTable

def targets (table : MountTable) : List Str := table.mounts.map (·.target)

theorem isPath_of_mem {table : MountTable} {t : Str} (h : t ∈ table.targets) : IsPath t := by
  obtain ⟨m, hm, rfl⟩ := List.mem_map.mp h
  exact table.isPath m hm

end MountTable

end Magisk.Mount
