import TokioExecutorProofs.RetryRest
import TokioExecutorProofs.IoStopRest
import TokioExecutorProofs.IoSettlement
import TokioExecutorProofs.IoDrain
import TokioExecutorProofs.BlockingDrain
import TokioExecutorProofs.BlockingSettlement
import TokioExecutorProofs.BlockingExecution
import TokioExecutorProofs.BoundedExecutors
import TokioExecutorProofs.ServiceStats
import TokioExecutorProofs.RegistryBounds
import TokioExecutorProofs.IoResults
import TokioExecutorProofs.BlockingWaiters
import TokioExecutorProofs.IoHandles
import TokioExecutorProofs.AdmissionOrder
import TokioExecutorProofs.CapacityRetry
import TokioExecutorProofs.BlockingCancel
import TokioExecutorProofs.BlockingStopContract
import TokioExecutorProofs.IoStop
import TokioExecutorProofs.BlockingTimedWait
import TokioExecutorProofs.MarkerRegistries
import TokioExecutorProofs.BlockingThreads
import TokioExecutorProofs.IoRest
