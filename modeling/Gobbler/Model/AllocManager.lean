import Gobbler.Model.Allocator

namespace Gobbler.AllocManager

open Effect

/-- `randomize_alloc_type` of `alloc_manager.c`. What that file has besides the
three functions here is as in `mem_gobbler.c`. -/
def randomizeAllocType {γ : Type} : M γ MemType := do
  let s ← get
  let type := countedType s.typeCnt
  typeCntSucc
  return type

variable {γ : Type} (w : World γ)

def randomAllocatorOne : M γ MemType := do
  let allocType ← randomizeAllocType
  let allocLen ← randomizeAllocLen w
  let (addr, allocLen, node) ← alloc w allocType allocLen
  if addr = 0 then
    modify fun s => { s with refused := s.refused + 1 }
    return .typeMax
  else
    let allocSuc ← addNewAlloc addr allocLen allocType
    let pageCnt := allocLen / w.pageSize
    countPages allocType pageCnt
    settle node allocSuc
    return allocType

def transRandAlloc : M γ Int := do
  goToNxtPhase
  let typ ← randomAllocatorOne w
  if typ = .typeMax then throw (.exit "Failure in Transition allocation\n")
  return 0

end Gobbler.AllocManager
