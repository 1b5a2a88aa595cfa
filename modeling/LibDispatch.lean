import LibDispatch.MpscDelivery
import LibDispatch.RootQueueDelivery
import LibDispatch.QueueDrainLock
import LibDispatch.SuspendGuarantees
import LibDispatch.EpollInterest
import LibDispatch.EpollRearm
import LibDispatch.GroupWait
import LibDispatch.DataDisposal
import LibDispatch.SwiftData
import LibDispatch.TransformMalformed
import LibDispatch.TransformDetect
import LibDispatch.TimerRun
import LibDispatch.SwiftTime
import LibDispatch.Timeout
import LibDispatch.TimerConfig
import LibDispatch.IoStream
import LibDispatch.IoBarrier
import LibDispatch.OnceGuarantees
import LibDispatch.ApplyGuarantees
import LibDispatch.ApplyWidth
import LibDispatch.WorkloopGuarantees
