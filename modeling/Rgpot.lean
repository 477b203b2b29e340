import Rgpot.Nlist.MinimumImage
import Rgpot.Nlist.CellVisit
import Rgpot.Nlist.IndexBounds
import Rgpot.Nlist.HalfList
import Rgpot.LennardJones.Forces
import Rgpot.Cache.EntryPoints
import Rgpot.Cache.ParamsKey
import Rgpot.Cache.Composite
import Rgpot.Rpc.Covariance
import Rgpot.Rpc.UnitLanguage
import Rgpot.Rpc.Doubles
import Rgpot.Rpc.Requests
import Rgpot.Plugin.Bridge
import Rgpot.Calculators.Share
import Rgpot.Calculators.Acceptance
import Rgpot.Calculators.Rebind
import Rgpot.Cpmd.Lifecycle
import Rgpot.Cpmd.Rejection
import Rgpot.Mpi.Lockstep
import Rgpot.Eindir.FusedCache
import Rgpot.XcKernel.Response
import Rgpot.XcKernel.Fields
import Rgpot.XcKernel.StageB
import Rgpot.Metatomic.Averaging
import Rgpot.Metatomic.Frontend
import Rgpot.ExprPot.Conservative
import Rgpot.Engines.History
import Rgpot.GroupCache.Together
import Rgpot.Fortran.Neighbors
import Rgpot.Fortran.TableRuns
import Rgpot.Uma.EdgeList
import Rgpot.Uma.Contract
import Rgpot.Uma.Numbers
import Rgpot.Uma.Band
import Rgpot.Uma.EngineAbi
import Rgpot.PairKernels
import Rgpot.Abi.ProfileLoader
import Rgpot.Potctl.Sync
import Rgpot.Fortran.Sw
import Rgpot.Fortran.EamAl
import Rgpot.Fortran.Edip
import Rgpot.Fortran.Tersoff
import Rgpot.Uma.AotiPublication
import Rgpot.Registry
import Rgpot.Plugin.Discover
