import KalavaPir.Common.QStoreReopen
import KalavaPir.Common.QStoreDelete
import KalavaPir.Common.QStoreZeroKey
import KalavaPir.Worker.SearchPool
import KalavaPir.Worker.BackgroundThreads
import KalavaPir.Worker.TrainingMutex
import KalavaPir.Worker.TrainingDelta
import KalavaPir.Master.TrainThread
import KalavaPir.Master.StatusPage
import KalavaPir.Master.SearchAnswer
import KalavaPir.Requests.Delivery
import KalavaPir.Common.QDataStream
import KalavaPir.Common.QRegisterSave
import KalavaPir.Common.QDenseIndexKeys
import KalavaPir.Common.QStrIDSessions
import KalavaPir.Common.QLBClusterShare
import KalavaPir.Common.QRWLockFunc
import KalavaPir.Common.QQSParallelIsolation
import KalavaPir.Common.QSocketPool
import KalavaPir.Common.QXmlBalance
import KalavaPir.Common.QQueueHistory
import KalavaPir.Common.QPriorityQueue
import KalavaPir.Common.QListQueue
import KalavaPir.Common.QLBClusterMembers
import KalavaPir.Common.QHeap
import KalavaPir.Common.QRedBlackCount
import KalavaPir.Common.QBase62
import KalavaPir.Common.QStrRepInPlace
import KalavaPir.Common.QDenoise
import KalavaPir.Common.QLogicalParser
import KalavaPir.Common.QHttpIsolation
import KalavaPir.Common.QTime
import KalavaPir.Common.QDate
import KalavaPir.Common.QToNumNumerals
import KalavaPir.Common.QUrlCode
import KalavaPir.Common.QFindKMP
import KalavaPir.Common.QBinarySearch
import KalavaPir.Common.QUnrecursionDepth
import KalavaPir.Common.QQuickSort3
import KalavaPir.Common.QElementarySorts
import KalavaPir.Common.QRecursion2K
import KalavaPir.Master.WorkerLists
import KalavaPir.Common.QStoreOffsets
import KalavaPir.Sentinel.Launch
import KalavaPir.Common.QConfigBuffer
import KalavaPir.Common.QRepairFile
import KalavaPir.Common.QByteArray
import KalavaPir.Requests.ServerLog
import KalavaPir.Common.QHashTraversal
import KalavaPir.Common.QList
import KalavaPir.Common.QBitMap
import KalavaPir.Common.QBitMap2
import KalavaPir.Common.QXmlAttributes
import KalavaPir.Common.QSubstr
import KalavaPir.Common.QStringBuffer
import KalavaPir.Common.QDistance
import KalavaPir.Common.QSerializationReaders
import KalavaPir.Common.QAllocatorRecycleRuns
import KalavaPir.Common.QBufferRuns
import KalavaPir.Common.QChineseSpelling
import KalavaPir.Common.QShinyXML
