import TokioCompat.IdleCaller
import TokioCompat.IdleBacklog
import TokioCompat.ContextRestore
import TokioCompat.StartupCurrent
import TokioCompat.StartupPool
import TokioCompat.Background
import TokioCompat.TaskExecutor
import TokioCompat.Leak
import TokioCompat.SpawnRefinement
import TokioCompat.Completion
import TokioCompat.Drivers
